import Labrea.Library.Enclosing
import Labrea.Wrapper

/-! What labrea does around a program that it runs once: its locks, a call into Lua, the hooks
before and after, and the window of a top-level call.
-/

namespace Labrea

variable {α β : Type} {inner : Run α} {thread entry : Thread} {front back : List Event}
  {finish : α → Thread → β × Thread}

open Traced.Program

theorem encloses_lockHolder {site : Site} {body : Run β} (unowned : thread.ownsMutex = false)
    (encloses
      : Encloses body { thread with ownsMutex := true } front inner entry back finish)
    : Encloses (lockHolder site body) thread (.lock site :: front) inner entry
        (back ++ [.unlock])
        (fun value next =>
          ((finish value next).1, { (finish value next).2 with ownsMutex := false })) := by
  exact Encloses.after (lockMutex_run unowned) (encloses.before fun _ _ _ _ => rfl)

theorem encloses_antiLockHolder {body : Run β}
    (encloses
      : Encloses body { thread with ownsMutex := false } front inner entry back finish)
    (unowned : ∀ trace value next, inner entry = ⟨trace, .ok (value, next)⟩
      → (finish value next).2.ownsMutex = false)
    : Encloses (antiLockHolder body) thread (.unlock :: front) inner entry
        (back ++ [.lock .antiLockHolder])
        (fun value next =>
          ((finish value next).1, { (finish value next).2 with ownsMutex := true })) := by
  have unlocked : unlockMutex thread
      = ⟨[.unlock], .ok ((), { thread with ownsMutex := false })⟩ := rfl
  refine Encloses.after unlocked (encloses.before fun trace value next ran => ?_)
  rw [bind_of_ok (lockMutex_run (unowned trace value next ran))]
  rfl

/-- What `getLuaState` does on a thread with or without a state. -/
def stateEvents (luaThread : Bool) : List Event :=
  if luaThread then [] else [.lock .getLuaState, .newthread, .unlock]

theorem getLuaState_run (unowned : thread.ownsMutex = false)
    : getLuaState thread
      = ⟨stateEvents thread.luaThread,
          .ok ((), { thread with luaThread := true, ownsMutex := false })⟩ := by
  obtain ⟨invocation, luaThread, ownsMutex, errno⟩ := thread
  cases unowned
  cases luaThread <;> rfl

theorem encloses_luaStateHolder {body : Run β} (unowned : thread.ownsMutex = false)
    (encloses
      : Encloses body { thread with luaThread := true, ownsMutex := true } front inner entry
          back finish)
    : Encloses (luaStateHolder body) thread
        (stateEvents thread.luaThread ++ .lock .luaStateHolder :: front) inner entry
        (back ++ [.unlock])
        (fun value next =>
          ((finish value next).1, { (finish value next).2 with ownsMutex := false })) := by
  exact Encloses.after (getLuaState_run unowned) (encloses_lockHolder rfl encloses)

theorem encloses_hookedCall {env : Env} {func : FType} {name : CString} {rv : CType}
    {args : List CValue} {early late : List Event} {middle : Thread}
    {result : α → Thread → CValue} {state last : α → Thread → Thread}
    (beforeRun
      : onlyIf func.hasBefore (beforeCall env name args) thread = ⟨early, .ok ((), middle)⟩)
    (encloses
      : Encloses (resultOf env func rv args) middle front inner entry back
          fun value next => (result value next, state value next))
    (afterRun
      : ∀ trace value next, inner entry = ⟨trace, .ok (value, next)⟩
        → onlyIf func.hasAfter (afterCall env name (result value next) args)
            (state value next)
          = ⟨late, .ok ((), last value next)⟩)
    : Encloses (hookedCall env func name rv args) thread (early ++ front) inner entry
        (back ++ late) (fun value next => (result value next, last value next)) := by
  rw [hookedCall]
  refine Encloses.after beforeRun ?_
  refine encloses.before fun trace value next ran => ?_
  rw [bind_of_ok (afterRun trace value next ran), pure_run, List.append_nil]

theorem encloses_wrapper {env : Env} {func : FType} {name : CString} {rv : CType}
    {args : List CValue} {result : α → Thread → CValue} {last : α → Thread → Thread}
    (unset : thread.invocation ≠ some true)
    (encloses
      : Encloses (hookedCall env func name rv args) { thread with invocation := some true }
          front inner entry back fun value next => (result value next, last value next))
    : Encloses (wrapper env func name rv args) thread (.enter func :: .arm :: front) inner
        entry (back ++ [.disarm])
        (fun value next =>
          (result value next, { last value next with invocation := some false })) := by
  refine Encloses.after (emit_run _ _) (Encloses.after (luaInvocation_ready unset) ?_)
  rw [if_pos rfl]
  exact encloses.before fun _ _ _ _ => rfl

theorem encloses_pcall {state : LState} {args : Nat}
    {body : Run (Except LuaValue LuaValue)} {value : α → Thread → LuaValue}
    {last : α → Thread → Thread}
    (encloses
      : Encloses body thread front inner entry back
          fun word next => (.ok (value word next), last word next))
    : Encloses (pcall state args body) thread (.pcall state args :: front) inner entry
        (back ++ [.pcallReturn state])
        (fun word next => (.ok (value word next), last word next)) :=
  Encloses.after (emit_run _ _) (encloses.before fun _ _ _ _ => rfl)

end Labrea
