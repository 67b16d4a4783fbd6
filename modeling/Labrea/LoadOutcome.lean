import Labrea.Library.Partial
import Labrea.ScriptContexts

/-! When start-up returns to the dynamic linker, and when it ends the process instead.
-/

namespace Labrea

open Traced.Program (bind_returns_iff bind_of_ok bind_of_error each emit emit_bind_run)

variable {hasInit : Bool} {report : Run Unit} {globals : CString → Bool}
  {functions : List FType} {body script : Run (Except LuaValue LuaValue)} {thread last : Thread}

/-- `lua_pcall` gives on what its body returns. -/
theorem pcall_result {state : LState} {args : Nat}
    : (pcall state args body thread).result = (body thread).result := by
  rw [pcall, emit_bind_run]
  rcases ran : body thread with ⟨trace, _ | ⟨_ | _, next⟩⟩
  · rw [bind_of_error ran]
  · rw [bind_of_ok ran]
    rfl
  · rw [bind_of_ok ran]
    rfl

/-- A call at start-up returns exactly where its function does. -/
theorem callOrEnd_returns_iff {args : Nat}
    : (callOrEnd args body report thread).result = .ok ((), last)
      ↔ ∃ value, (body thread).result = .ok (.ok value, last) := by
  have pushes :
      (each (fun _ => emit (.push .proto)) (List.range args) : Run Unit) thread = _ :=
    Traced.Program.each_emit_run _ _ thread
  rw [callOrEnd, emit_bind_run, bind_of_ok pushes]
  dsimp only
  rw [bind_returns_iff]
  simp only [pcall_result]
  constructor
  · intro holds
    rcases holds with ⟨value | value, between, ran, ended⟩
    · obtain ⟨_, _, _, halted⟩ := bind_returns_iff.mp ended
      cases halted
    · cases ended
      exact ⟨value, ran⟩
  · intro holds
    obtain ⟨value, ran⟩ := holds
    exact ⟨.ok value, last, ran, rfl⟩

theorem doReinit_returns_iff {state : LState}
    : (∃ table, (doReinit globals state functions thread).result = .ok (table, last))
      ↔ thread.ownsMutex = false ∧ last = thread := by
  cases owned : thread.ownsMutex with
  | true =>
      rw [doReinit_owned globals state functions owned]
      simp
  | false =>
      obtain ⟨trace, run⟩ := doReinit_run globals state functions owned
      rw [run]
      simp [eq_comm]

/-- `labrea_load_user_script` returns exactly where the script does, with the mutex free. -/
theorem loadUserScript_returns_iff
    : (∃ value, (loadUserScript globals functions script thread).result = .ok (.ok value, last))
      ↔ ∃ value, (script thread).result = .ok (.ok value, last) ∧ last.ownsMutex = false := by
  simp only [loadUserScript, bind_returns_iff]
  constructor
  · intro holds
    rcases holds with ⟨_, value | value, between, ran, ended⟩
    · cases ended
    · obtain ⟨table, next, reinit, ended⟩ := bind_returns_iff.mp ended
      cases ended
      obtain ⟨unowned, rfl⟩ := doReinit_returns_iff.mp ⟨table, reinit⟩
      exact ⟨value, ran, unowned⟩
  · intro holds
    obtain ⟨value, ran, unowned⟩ := holds
    obtain ⟨table, reinit⟩ := doReinit_returns_iff.mpr ⟨unowned, rfl⟩
    exact ⟨.nil, .ok value, last, ran, bind_returns_iff.mpr ⟨table, last, reinit, rfl⟩⟩

/-- With an `init.lua`, all of `initScriptingState` before the load of the script returns. -/
theorem initScriptingState_result
    : (initScriptingState true report globals functions script thread).result
      = (callOrEnd 0 (loadUserScript globals functions script) report thread).result := by
  obtain ⟨first, dofile⟩ := callOrEnd_plainLua_run 0 report thread
  obtain ⟨second, recorded⟩ := recordFunctions_run report functions thread
  let load := callOrEnd 0 (loadUserScript globals functions script) report
  have init := bind_of_ok dofile fun _ => recordFunctions true report functions >>= fun _ => load
  have record := bind_of_ok recorded fun _ => load
  rw [initScriptingState, emit_bind_run]
  refine (congrArg Traced.Outcome.result init).trans ?_
  dsimp only
  rw [record]

/-- `initScriptingState` returns exactly where there is an `init.lua` and the script returns. -/
theorem initScriptingState_returns_iff
    : (initScriptingState hasInit report globals functions script thread).result = .ok ((), last)
      ↔ hasInit
        ∧ ∃ value, (script thread).result = .ok (.ok value, last) ∧ last.ownsMutex = false := by
  cases hasInit with
  | false =>
      -- Nothing returns from the call of `labrea_load_user_script`, which is nil.
      simp only [initScriptingState, bind_returns_iff, Bool.false_eq_true, false_and, iff_false]
      intro holds
      obtain ⟨_, _, _, _, _, _, _, _, _, ended⟩ := holds
      obtain ⟨_, nil⟩ := callOrEnd_returns_iff.mp ended
      cases nil
  | true =>
      rw [initScriptingState_result, callOrEnd_returns_iff, loadUserScript_returns_iff]
      simp

end Labrea
