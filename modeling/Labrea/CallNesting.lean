import Labrea.LuaStates

/-! When the calls in progress on a `lua_State` belong to one thread. The timer thread and
the exiting one both call Lua on `luaStateProto`, and release the mutex in the middle.
-/

namespace Labrea

open Interleaving (Config)

/-- The next step does not lock the mutex to call Lua on `luaStateProto` while a call is in
progress there.
-/
def protoFree (config : Config Tid Event Shared View) (thread : Tid) : Bool :=
  match config.rest thread with
  | .lock site :: _ => !site.callsProto || (config.shared.stack .proto).frames.isEmpty
  | _ => true

/-- The calls on `luaStateProto` belong to one thread, and a thread that locked the mutex to
call Lua there finds none.
-/
structure Exclusive (process : Process) (shared : Shared) (views : Tid → View)
    : Prop extends Owned process shared views where
  proto
    : ∃ user,
        (shared.stack .proto).calls
          = ((views user).calls .proto).map (fun kind => (user, kind))
        ∧ ∀ other, other ≠ user → (views other).calls .proto = []
  alone
    : ∀ thread site, (views thread).held = some site → site.callsProto
      → ∀ other, other ≠ thread → (views other).calls .proto = []

theorem Process.start_exclusive (process : Process)
    : Exclusive process process.start.shared process.start.views where
  toOwned := process.start_owned
  proto := ⟨.timer, rfl, fun _ _ => rfl⟩
  alone _ _ held := nomatch held

section Step

variable {process : Process} {config : Config Tid Event Shared View} {next : Shared}
  {thread : Tid} {event : Event} {later : List Event}

/-- Nobody has a call on `luaStateProto` where its stack has none. -/
theorem Exclusive.proto_empty
    (exclusive : Exclusive process config.shared config.views)
    (empty : (config.shared.stack .proto).frames = []) (other : Tid)
    : (config.views other).calls .proto = [] := by
  obtain ⟨user, calls, others⟩ := exclusive.proto
  rw [LuaStack.calls_eq_nil.mpr empty] at calls
  by_cases same : other = user
  · subst same
    exact List.map_eq_nil_iff.mp calls.symm
  · exact others other same

/-- An event that does not work on `luaStateProto`: where it locks the mutex for a call
there, there is none.
-/
theorem Exclusive.calm (exclusive : Exclusive process config.shared config.views)
    (owned
      : Owned process next
          (Function.update config.views thread ((config.views thread).next event)))
    (calls
      : ∀ other,
          (Function.update config.views thread ((config.views thread).next event)
            other).calls .proto
          = (config.views other).calls .proto)
    (stack : (next.stack .proto).calls = (config.shared.stack .proto).calls)
    (locks
      : ∀ site, event = .lock site → site.callsProto
        → (config.shared.stack .proto).frames = [])
    : Exclusive process next
        (Function.update config.views thread ((config.views thread).next event)) := by
  refine ⟨owned, ?_, ?_⟩
  · simpa only [stack, calls] using exclusive.proto
  · intro user site held site_calls other apart
    rw [calls]
    by_cases isLock : ∃ site, event = .lock site
    · obtain ⟨place, rfl⟩ := isLock
      by_cases same : user = thread
      · subst same
        rw [Function.update_self] at held
        cases held
        exact exclusive.proto_empty (locks site rfl site_calls) other
      · rw [Function.update_of_ne same] at held
        exact exclusive.alone user site held site_calls other apart
    · refine exclusive.alone user site ?_ site_calls other apart
      by_cases same : user = thread
      · subst same
        rw [Function.update_self] at held
        by_cases isUnlock : event = .unlock
        · subst isUnlock
          exact nomatch held
        · rwa [View.next_held (fun site lock => isLock ⟨site, lock⟩) isUnlock] at held
      · rwa [Function.update_of_ne same] at held

/-- A thread works on `luaStateProto` only where all calls in progress there are its own. -/
theorem Exclusive.mine {op : StackOp}
    (exclusive : Exclusive process config.shared config.views)
    (allowed : (config.views thread).allows event)
    (found : event.stackOp = some (.proto, op))
    : (config.shared.stack .proto).calls
        = ((config.views thread).calls .proto).map (fun kind => (thread, kind))
      ∧ ∀ other, other ≠ thread → (config.views other).calls .proto = [] := by
  obtain ⟨user, calls, others⟩ := exclusive.proto
  by_cases same : user = thread
  · subst same
    exact ⟨calls, others⟩
  · have idle := others thread (Ne.symm same)
    rcases View.proto_use allowed found with ⟨kind, rest, busy⟩ | ⟨site, locked, site_calls⟩
    · exact absurd (idle.symm.trans busy) (by simp)
    · have elsewhere := exclusive.alone thread site locked site_calls
      rw [elsewhere user same] at calls
      rw [calls, idle]
      exact ⟨rfl, elsewhere⟩

/-- An operation on `luaStateProto` leaves it to its only user. -/
theorem Exclusive.work {op : StackOp} {stack : LuaStack}
    (exclusive : Exclusive process config.shared config.views)
    (allowed : (config.views thread).allows event)
    (owned
      : Owned process next
          (Function.update config.views thread ((config.views thread).next event)))
    (found : event.stackOp = some (.proto, op))
    (applied : (config.shared.stack .proto).apply thread op = some stack)
    (performed : next.stack .proto = stack)
    : Exclusive process next
        (Function.update config.views thread ((config.views thread).next event)) := by
  obtain ⟨calls, others⟩ := exclusive.mine allowed found
  have others_after : ∀ other, other ≠ thread →
      (Function.update config.views thread ((config.views thread).next event) other).calls
        .proto = [] := by
    intro other ne
    rw [Function.update_of_ne ne]
    exact others other ne
  refine ⟨owned, ⟨thread, ?_, others_after⟩, ?_⟩
  · rw [performed, LuaStack.apply_calls applied, calls, calls_of_stackOp allowed found,
      if_pos rfl]
    exact StackOp.onCalls_map
  · intro holder site locked _ other apart
    by_cases same : holder = thread
    · subst same
      exact others_after other apart
    · rw [Function.update_of_ne same] at locked
      have owner := (exclusive.owner holder).mpr (by simp [locked])
      have worker := (exclusive.owner thread).mpr (View.held_of_stackOp allowed found)
      exact absurd (Option.some.inj (owner.symm.trans worker)) same

/-- Every allowed event that meets the condition keeps the calls on `luaStateProto` with one
thread.
-/
theorem Exclusive.step (exclusive : Exclusive process config.shared config.views)
    (free : protoFree config thread) (found : config.rest thread = event :: later)
    (allowed : (config.views thread).allows event)
    (performed : perform config.shared thread event = some next)
    : Exclusive process next
        (Function.update config.views thread ((config.views thread).next event)) := by
  have owned := exclusive.toOwned.step allowed performed
  rcases protoCalls_cases allowed performed with ⟨op, works, applied⟩ | ⟨calls, stack⟩
  · exact exclusive.work allowed owned works applied rfl
  · refine exclusive.calm owned calls stack ?_
    intro site locks callsProto
    cases locks
    simpa [protoFree, found, callsProto] using free

end Step

/-- On the stack that a thread works on, the calls in progress are its own. -/
def OwnCallsOnly (config : Config Tid Event Shared View) : Prop :=
  ∀ thread event later state op ref,
    config.rest thread = event :: later
    → event.stackOp = some (state, op)
    → config.shared.ref thread state = some ref
    → (∀ kind taken, op = .call kind taken
        → ∀ frame ∈ (config.shared.stack ref).frames, frame.owner = thread)
      ∧ ∀ kind, op.ends = some kind
        → ∃ frame below,
            (config.shared.stack ref).frames = frame :: below
            ∧ frame.owner = thread ∧ frame.kind = kind

/-- A stack with the calls of one thread only. -/
theorem LuaStack.owner_of_calls {stack : LuaStack} {thread : Tid} {calls : List FrameKind}
    (same : stack.calls = calls.map fun kind => (thread, kind))
    : ∀ frame ∈ stack.frames, frame.owner = thread := by
  intro frame member
  have listed : (frame.owner, frame.kind) ∈ stack.calls := List.mem_map.mpr ⟨frame, member, rfl⟩
  rw [same, List.mem_map] at listed
  obtain ⟨_, _, pair⟩ := listed
  exact (congrArg Prod.fst pair).symm

/-- In a run in which the timer thread and the exiting one do not call Lua on `luaStateProto`
while the other is in the middle of a call there, no thread begins a call on a state on
which another has one in progress, and each call returns with its own frame on top.
Witness: each state has one user.
-/
theorem Process.ownCallsOnly (process : Process) {config : Config Tid Event Shared View}
    (run : process.Reaches protoFree config)
    : OwnCallsOnly config := by
  have invariant
      : (∀ thread, discipline.Accepts (config.views thread) (config.rest thread))
        ∧ Exclusive process config.shared config.views :=
    run.invariant process.accepted process.start_exclusive
      fun _ _ _ _ _ exclusive free found allowed performed =>
        exclusive.step free found allowed performed
  obtain ⟨accepted, exclusive⟩ := invariant
  intro thread event later state op ref next works at'
  have allowed := accepted thread
  rw [next, Traced.Monitor.accepts_cons] at allowed
  suffices
      (config.shared.stack ref).calls
        = ((config.views thread).calls state).map fun kind => (thread, kind) by
    refine ⟨fun _ _ _ => LuaStack.owner_of_calls this, ?_⟩
    intro kind ends
    obtain ⟨rest, newest⟩ := View.calls_ends allowed.1 works ends
    rw [newest, List.map_cons, LuaStack.calls, List.map_eq_cons_iff] at this
    obtain ⟨frame, below, frames, pair, _⟩ := this
    exact ⟨frame, below, frames, congrArg Prod.fst pair, congrArg Prod.snd pair⟩
  cases state with
  | own =>
      obtain ⟨mine, keyed, rfl⟩ := Option.map_eq_some_iff.mp at'
      exact exclusive.own thread mine keyed
  | proto =>
      cases at'
      exact (exclusive.mine allowed.1 works).1

/-- A callback of the timer thread that is about to enter `labrea.usleep` is in the only call
on `luaStateProto`.
-/
theorem sleepingCallback_ownCallsOnly
    : ∃ config, sleepingCallback.Reaches protoFree config
        ∧ (config.shared.stack .proto).calls = [(.timer, .lua)]
        ∧ OwnCallsOnly config := by
  obtain ⟨config, run, calls⟩ := Option.map_eq_some_iff.mp
    (show (sleepingCallback.start.exec perform discipline protoFree
        (List.replicate 6 .timer)).map (fun config => (config.shared.stack .proto).calls)
      = some [(.timer, .lua)] from rfl)
  have reached := Config.exec_reaches run
  exact ⟨config, reached, calls, sleepingCallback.ownCallsOnly reached⟩

/-- The exit handlers begin their call on `luaStateProto` while a callback sleeps there. -/
theorem sleepingCallback_shares_proto
    : ¬ ∀ (process : Process) (config : Config Tid Event Shared View),
        process.Reaches (fun _ _ => true) config → OwnCallsOnly config := by
  intro always
  obtain ⟨config, run, facts⟩ := Option.map_eq_some_iff.mp
    (show (sleepingCallback.start.exec perform discipline (fun _ _ => true)
        (List.replicate 8 .timer ++ List.replicate 3 (.app 0))).map
        (fun config => ((config.rest (.app 0)).head?, config.shared.stack .proto))
      = some (some (.pcall .proto 0),
          ⟨[⟨.timer, .c, [.value]⟩, ⟨.timer, .lua, []⟩], []⟩) from rfl)
  obtain ⟨next, stack⟩ := Prod.mk.inj facts
  obtain ⟨later, next⟩ := List.head?_eq_some_iff.mp next
  have owner := (always sleepingCallback config (Config.exec_reaches run) _ _ _ _ _ _ next rfl
    rfl).1 _ _ rfl ⟨.timer, .c, [.value]⟩ (by simp [stack])
  exact nomatch owner

end Labrea
