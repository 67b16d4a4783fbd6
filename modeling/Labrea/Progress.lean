import Labrea.CallNesting

/-! Whether the threads of a process can always go on: a thread waits only for the mutex, and
only for a thread that can go on itself.
-/

namespace Labrea

open Interleaving (Config)

/-- The next step is neither a hooked call that will wait for its own thread, nor does it lock
the mutex for a call on `luaStateProto` where one is in progress.
-/
def orderly (config : Config Tid Event Shared View) (thread : Tid) : Bool :=
  timerHookFree config thread && protoFree config thread

theorem orderly_iff {config : Config Tid Event Shared View} {thread : Tid}
    : orderly config thread ↔ timerHookFree config thread ∧ protoFree config thread := by
  rw [orderly, Bool.and_eq_true]

/-- No thread waits for a mutex of its own, and the calls on `luaStateProto` are those of one
thread.
-/
def Clean (process : Process) (shared : Shared) (views : Tid → View) : Prop :=
  Untainted process shared views ∧ Exclusive process shared views

/-- Only the steps that the condition excludes taint a thread or mix the calls. -/
theorem Process.Reaches.orderly {process : Process} {config : Config Tid Event Shared View}
    (run : process.Reaches Labrea.orderly config)
    : (∀ thread, discipline.Accepts (config.views thread) (config.rest thread))
      ∧ Clean process config.shared config.views := by
  refine run.invariant process.accepted
    ⟨⟨process.start_disciplined, fun _ => rfl⟩, process.start_exclusive⟩ ?_
  intro config thread event later shared ⟨untainted, exclusive⟩ free found allowed performed
  obtain ⟨hookFree, protoFree⟩ := orderly_iff.mp free
  refine ⟨⟨untainted.toDisciplined.step allowed performed, ?_⟩,
    exclusive.step protoFree found allowed performed⟩
  intro other
  by_cases same : other = thread
  · subst same
    rw [Function.update_self]
    exact untainted.next hookFree found allowed
  · rw [Function.update_of_ne same]
    exact untainted.untainted other

section

variable {process : Process} {shared : Shared} {views : Tid → View} {thread : Tid}
  {event : Event} {state : LState} {op : StackOp}

/-- A thread uses its own state where it has one, or has a call in progress there. -/
theorem View.own_use {view : View} (allowed : view.allows event)
    (found : event.stackOp = some (.own, op))
    : view.registered ∨ view.calls .own ≠ [] := by
  have busy {frame : Frame} {kind : FrameKind} (inside : view.inside frame)
      (onOwn : frame.kindOn .own = some kind)
      : view.calls .own ≠ [] := by
    obtain ⟨rest, frames⟩ := List.head?_eq_some_iff.mp inside
    rw [View.calls, frames, List.filterMap_cons_some onOwn]
    exact List.cons_ne_nil _ _
  cases event <;> simp only [Event.stackOp, Option.some.injEq, Prod.mk.injEq, reduceCtorEq]
    at found <;> obtain ⟨rfl, rfl⟩ := found
  case settop | push | pcall => exact Or.inl allowed.2
  case pcallReturn | pcallError | ccall | creturn => exact Or.inr (busy allowed.2 rfl)

/-- A thread works on a state that exists. -/
theorem Owned.ref_isSome (owned : Owned process shared views)
    (allowed : (views thread).allows event) (found : event.stackOp = some (state, op))
    : ∃ ref, shared.ref thread state = some ref := by
  cases state with
  | proto => exact ⟨.proto, rfl⟩
  | own =>
      have keyed : (shared.key thread).isSome := by
        rcases View.own_use allowed found with registered | busy
        · rw [owned.key, registered]
        · rw [Option.isSome_iff_ne_none]
          exact mt (owned.keyless thread) busy
      obtain ⟨id, mine⟩ := Option.isSome_iff_exists.mp keyed
      exact ⟨.thread id, congrArg (Option.map LuaRef.thread) mine⟩

/-- The calls on the state that a thread works on are its own. -/
theorem Exclusive.calls_eq {config : Config Tid Event Shared View} {ref : LuaRef}
    (exclusive : Exclusive process config.shared config.views)
    (allowed : (config.views thread).allows event)
    (found : event.stackOp = some (state, op))
    (located : config.shared.ref thread state = some ref)
    : (config.shared.stack ref).calls
      = ((config.views thread).calls state).map fun kind => (thread, kind) := by
  cases state with
  | proto =>
      cases located
      exact (exclusive.mine allowed found).1
  | own =>
      obtain ⟨id, mine, rfl⟩ := Option.map_eq_some_iff.mp located
      exact exclusive.own thread id mine

/-- A stack operation is defined where an error unwinds to a `lua_pcall` of its thread. -/
theorem LuaStack.apply_isSome {stack : LuaStack}
    (thrown
      : op = .throw
        → ∃ frame below, stack.frames = frame :: below ∧ frame.owner = thread
          ∧ frame.kind = .lua)
    : ∃ next, stack.apply thread op = some next := by
  cases op with
  | settop | push | call | ret => exact ⟨_, rfl⟩
  | throw =>
      obtain ⟨frame, below, frames, mine, lua⟩ := thrown rfl
      refine ⟨({ stack with frames := below } : LuaStack).push .value, ?_⟩
      simp only [LuaStack.apply, LuaStack.throw, frames, mine, lua, and_self, if_true]

/-- Every event but a lock can be performed where the discipline allows it. -/
theorem Exclusive.performs {config : Config Tid Event Shared View}
    (exclusive : Exclusive process config.shared config.views)
    (allowed : (config.views thread).allows event)
    (notLock : ∀ site, event ≠ .lock site)
    : ∃ next, perform config.shared thread event = some next := by
  rcases works : event.stackOp with _ | ⟨state, op⟩
  · cases event
    case lock site => exact absurd rfl (notLock site)
    case settop | push | pcall | pcallReturn | pcallError | ccall | creturn => cases works
    all_goals exact ⟨_, rfl⟩
  · obtain ⟨ref, located⟩ := exclusive.toOwned.ref_isSome allowed works
    have calls := exclusive.calls_eq allowed works located
    have defined : ∃ next, (config.shared.stack ref).apply thread op = some next := by
      refine LuaStack.apply_isSome ?_
      intro same
      subst same
      obtain ⟨rest, newest⟩ := View.calls_ends allowed works rfl
      rw [newest, List.map_cons, LuaStack.calls, List.map_eq_cons_iff] at calls
      obtain ⟨frame, below, frames, pair, _⟩ := calls
      exact ⟨frame, below, frames, congrArg Prod.fst pair, congrArg Prod.snd pair⟩
    obtain ⟨stack, applied⟩ := defined
    refine ⟨{ config.shared with
      stack := Function.update config.shared.stack ref stack }, ?_⟩
    cases event <;> simp only [Event.stackOp, Option.some.injEq, Prod.mk.injEq, reduceCtorEq]
      at works <;> obtain ⟨rfl, rfl⟩ := works <;>
      simp [perform, Event.stackOp, located, applied]

end

/-- A thread that returned from everything has given the mutex back. -/
theorem Process.released (process : Process) {config : Config Tid Event Shared View}
    {guard : Config Tid Event Shared View → Tid → Bool} (run : process.Reaches guard config)
    {thread : Tid} (returns : (process.program thread (process.thread thread)).result.isOk)
    (finished : config.rest thread = [])
    : (config.views thread).held = none := by
  obtain ⟨⟨_, next⟩, found⟩ : ∃ result,
      (process.program thread (process.thread thread)).result = .ok result := by
    cases found : (process.program thread (process.thread thread)).result with
    | ok result => exact ⟨result, rfl⟩
    | error reason => simp [found, Except.isOk, Except.toBool] at returns
  have last := (process.program_stays thread).2
  rw [found] at last
  have after := run.after_eq thread
  rw [finished, Traced.Monitor.after_nil] at after
  rw [after]
  exact last.2.held_eq_none.mpr rfl

/-- No thread of `sleepingCallback` aborts. -/
theorem sleepingCallback_returns (thread : Tid)
    : (sleepingCallback.program thread (sleepingCallback.thread thread)).result.isOk := by
  match thread with
  | .timer | .app 0 | .app 1 => rfl
  | .app (n + 2) =>
      have exits : ¬ n + 2 = sleepingCallback.main := by simp [sleepingCallback]
      have calls : sleepingCallback.calls (n + 2) = [] := by simp [sleepingCallback]
      rw [Process.program, calls, onlyIf, if_neg exits]
      rfl

end Labrea
