import Labrea.LuaStates

/-! Whether the `lua_State` of each thread stays reachable. `lua_newthread` leaves the new
state in whatever frame is the newest on `luaStateProto`.
-/

namespace Labrea

open Interleaving (Config)

/-- A call on `luaStateProto` begins where a thread locked the mutex to make it, or inside
Lua code that runs there.
-/
theorem View.call_proto {view : View} {event : Event} {kind : FrameKind} {taken : Nat}
    (allowed : view.allows event) (found : event.stackOp = some (.proto, .call kind taken))
    : (kind = .lua ∧ view.frames = [] ∧ taken = view.pushed
        ∧ ∃ site, view.held = some site ∧ site.callsProto)
      ∨ (kind = .c ∧ taken = 0 ∧ ∃ rest, view.calls .proto = .lua :: rest) := by
  cases event <;> simp only [Event.stackOp, Option.some.injEq, Prod.mk.injEq, reduceCtorEq,
    StackOp.call.injEq] at found
  case pcall state args =>
    obtain ⟨rfl, rfl, rfl⟩ := found
    exact Or.inl ⟨rfl, allowed.2.1, allowed.2.2.symm, allowed.1⟩
  case ccall state =>
    obtain ⟨rfl, rfl, rfl⟩ := found
    obtain ⟨rest, frames⟩ := List.head?_eq_some_iff.mp allowed.2
    refine Or.inr ⟨rfl, rfl, ?_⟩
    rw [View.calls, frames]
    simp [Frame.kindOn]
  all_goals exact absurd found.2 (by simp)

/-- How many values a thread has pushed on `luaStateProto` after an operation: a call and its
end start anew.
-/
def StackOp.onPushed (state : LState) (pushed : Nat) : StackOp → Nat
  | .settop => pushed
  | .push => if state = .proto then pushed + 1 else pushed
  | _ => 0

theorem View.pushed_stackOp {view : View} {event : Event} {state : LState} {op : StackOp}
    (found : event.stackOp = some (state, op))
    : (view.next event).pushed = op.onPushed state view.pushed := by
  cases event <;> simp only [Event.stackOp, Option.some.injEq, Prod.mk.injEq, reduceCtorEq]
    at found <;> obtain ⟨rfl, rfl⟩ := found
  case push state => cases state <;> rfl
  all_goals rfl

theorem View.pushed_local {view : View} {event : Event} (isLocal : event.isLocal)
    : (view.next event).pushed = view.pushed := by
  cases event <;> first | rfl | exact nomatch isLocal

theorem LuaStack.top_setTop {stack : LuaStack} {slots : List Slot}
    : (stack.setTop slots).top = slots := by
  obtain ⟨frames, base⟩ := stack
  cases frames <;> rfl

/-- Where calls are in progress, setting the top of the stack does not reach its base. -/
theorem LuaStack.setTop_base {stack : LuaStack} {slots : List Slot}
    (busy : stack.frames ≠ [])
    : (stack.setTop slots).base = stack.base := by
  obtain ⟨frames, base⟩ := stack
  cases frames with
  | nil => exact absurd rfl busy
  | cons frame below => rfl

theorem LuaStack.mem_base_push {stack : LuaStack} {slot pushed : Slot}
    (member : slot ∈ stack.base)
    : slot ∈ (stack.push pushed).base := by
  obtain ⟨frames, base⟩ := stack
  cases frames with
  | nil => exact List.mem_cons_of_mem pushed member
  | cons frame below => exact member

theorem LuaStack.base_push {stack : LuaStack} {pushed : Slot} (idle : stack.frames = [])
    : (stack.push pushed).base = pushed :: stack.base := by
  obtain ⟨frames, base⟩ := stack
  cases idle
  rfl

/-- What is not among the slots a call takes is still in the base after it. -/
theorem LuaStack.mem_base_call {stack : LuaStack} {thread : Tid} {kind : FrameKind}
    {slot : Slot} {taken : Nat} (member : slot ∈ stack.base)
    (stays : stack.frames = [] → slot ∉ stack.top.take taken)
    : slot ∈ (stack.call thread kind taken).base := by
  obtain ⟨frames, base⟩ := stack
  cases frames with
  | nil =>
      have split : slot ∈ base.take taken ++ base.drop taken := by
        rwa [List.take_append_drop]
      exact (List.mem_append.mp split).resolve_left (stays rfl)
  | cons frame below => exact member

/-- An operation keeps what the base holds, if it ends a call or empties a frame only where
calls are in progress, and a call takes other slots.
-/
theorem LuaStack.mem_base_apply {stack next : LuaStack} {thread : Tid} {op : StackOp}
    {slot : Slot} (applied : stack.apply thread op = some next)
    (member : slot ∈ stack.base)
    (busy : (∃ kind, op.ends = some kind) ∨ op = .settop → stack.frames ≠ [])
    (stays
      : ∀ kind taken, op = .call kind taken → stack.frames = []
        → slot ∉ stack.top.take taken)
    : slot ∈ next.base := by
  cases op with
  | settop =>
      cases applied
      rwa [setTop_base (busy (Or.inr rfl))]
  | push =>
      cases applied
      exact mem_base_push member
  | call kind taken =>
      cases applied
      exact mem_base_call member (stays kind taken rfl)
  | ret kind =>
      cases applied
      have busy := busy (Or.inl ⟨kind, rfl⟩)
      unfold LuaStack.poscall
      split
      case _ empty => exact absurd empty busy
      · exact member
  | throw =>
      simp only [LuaStack.apply, LuaStack.throw] at applied
      split at applied
      · cases applied
      · split at applied
        · cases applied
          exact mem_base_push member
        · cases applied

/-- Each frame of `luaStateProto` above its base belongs to a call of the timer thread or of
the exiting one.
-/
structure Deep (process : Process) (shared : Shared) (views : Tid → View)
    : Prop extends Owned process shared views where
  depth
    : (shared.stack .proto).calls.length
      = ((views .timer).calls .proto).length
        + ((views (.app process.main)).calls .proto).length

theorem Process.start_deep (process : Process)
    : Deep process process.start.shared process.start.views where
  toOwned := process.start_owned
  depth := rfl

section Step

variable {process : Process} {config : Config Tid Event Shared View} {next : Shared}
  {thread : Tid} {event : Event}

/-- A thread has calls in progress on `luaStateProto` only where its stack has. -/
theorem Deep.busy {op : StackOp} {kind : FrameKind} {rest : List FrameKind}
    (deep : Deep process config.shared config.views)
    (allowed : (config.views thread).allows event)
    (found : event.stackOp = some (.proto, op))
    (calls : (config.views thread).calls .proto = kind :: rest)
    : (config.shared.stack .proto).frames ≠ [] := by
  intro empty
  have depth := deep.depth
  rw [LuaStack.calls_eq_nil.mpr empty, List.length_nil] at depth
  have some_call : 0 < ((config.views thread).calls .proto).length := by
    rw [calls]
    exact Nat.succ_pos _
  rcases deep.proto_user allowed found with rfl | rfl <;> omega

/-- The frames of `luaStateProto` and the calls of its users change together. -/
theorem Deep.depth_work {op : StackOp} {stack : LuaStack}
    (deep : Deep process config.shared config.views)
    (allowed : (config.views thread).allows event)
    (found : event.stackOp = some (.proto, op))
    (applied : (config.shared.stack .proto).apply thread op = some stack)
    : stack.calls.length
      = ((Function.update config.views thread ((config.views thread).next event)
          .timer).calls .proto).length
        + ((Function.update config.views thread ((config.views thread).next event)
          (.app process.main)).calls .proto).length := by
  have depth := deep.depth
  have length : stack.calls.length + ((config.views thread).calls .proto).length
      = (config.shared.stack .proto).calls.length
        + (op.onCalls id ((config.views thread).calls .proto)).length := by
    rw [LuaStack.apply_calls applied]
    refine StackOp.onCalls_length ?_ ?_
    · intro holds
      rcases holds with ⟨kind, ends⟩
      obtain ⟨rest, newest⟩ := View.calls_ends allowed found ends
      simp [newest]
    · rcases deep.proto_user allowed found with rfl | rfl <;> omega
  have calls_self := calls_of_stackOp allowed found .proto
  rw [if_pos rfl] at calls_self
  rcases deep.proto_user allowed found with rfl | rfl
  · have other : Tid.app process.main ≠ .timer := by simp
    rw [calls_self, Function.update_of_ne other]
    omega
  · have other : Tid.timer ≠ .app process.main := by simp
    rw [calls_self, Function.update_of_ne other]
    omega

/-- An event that leaves the calls on `luaStateProto` alone. -/
theorem Deep.calm (deep : Deep process config.shared config.views)
    (owned
      : Owned process next
          (Function.update config.views thread ((config.views thread).next event)))
    (calls
      : ∀ other,
          (Function.update config.views thread ((config.views thread).next event)
            other).calls .proto
          = (config.views other).calls .proto)
    (stack : (next.stack .proto).calls = (config.shared.stack .proto).calls)
    : Deep process next
        (Function.update config.views thread ((config.views thread).next event)) where
  toOwned := owned
  depth := by
    rw [stack, calls, calls]
    exact deep.depth

/-- Every allowed event keeps the frames and the calls in step. -/
theorem Deep.step (deep : Deep process config.shared config.views)
    (allowed : (config.views thread).allows event)
    (performed : perform config.shared thread event = some next)
    : Deep process next
        (Function.update config.views thread ((config.views thread).next event)) := by
  have owned := deep.toOwned.step allowed performed
  rcases protoCalls_cases allowed performed with ⟨op, works, applied⟩ | ⟨calls, stack⟩
  · exact ⟨owned, deep.depth_work allowed works applied⟩
  · exact deep.calm owned calls stack

end Step

-----------------------------------------------------------------------------------------
-- Anchors
-----------------------------------------------------------------------------------------

/-- The next step does not lock the mutex to register a thread while a call is in progress on
`luaStateProto`.
-/
def registersFree (config : Config Tid Event Shared View) (thread : Tid) : Bool :=
  match config.rest thread with
  | .lock .getLuaState :: _ => (config.shared.stack .proto).frames.isEmpty
  | _ => true

/-- Every registered state is in the base of `luaStateProto`, which nothing takes it from: the
slots a call is about to take are values its thread pushed.
-/
structure Anchored (process : Process) (shared : Shared) (views : Tid → View)
    : Prop extends Deep process shared views where
  anchored : ∀ thread id, shared.key thread = some id → .thread id ∈ (shared.stack .proto).base
  plain
    : ∀ thread, (views thread).held.isSome
      → ∀ slot ∈ (shared.stack .proto).top.take (views thread).pushed, slot = .value
  registering
    : ∀ thread, (views thread).held = some .getLuaState → (shared.stack .proto).calls = []

theorem Process.start_anchored (process : Process)
    : Anchored process process.start.shared process.start.views where
  toDeep := process.start_deep
  anchored _ _ found := nomatch found
  plain _ held := nomatch held
  registering _ held := nomatch held

section Step

variable {process : Process} {config : Config Tid Event Shared View} {next : Shared}
  {thread : Tid} {event : Event} {later : List Event}

/-- An event that leaves `luaStateProto` alone. -/
theorem Anchored.calm (anchored : Anchored process config.shared config.views)
    (deep
      : Deep process next
          (Function.update config.views thread ((config.views thread).next event)))
    (stack : next.stack .proto = config.shared.stack .proto)
    (key : next.key = config.shared.key)
    (pushed
      : ((config.views thread).next event).held.isSome
        → ((config.views thread).next event).pushed = 0
          ∨ ((config.views thread).next event).pushed = (config.views thread).pushed
            ∧ (config.views thread).held.isSome)
    (registers
      : ((config.views thread).next event).held = some .getLuaState
        → (config.views thread).held = some .getLuaState
          ∨ (config.shared.stack .proto).calls = [])
    : Anchored process next
        (Function.update config.views thread ((config.views thread).next event)) where
  toDeep := deep
  anchored := by
    rw [stack, key]
    exact anchored.anchored
  plain other held := by
    rw [stack]
    by_cases same : other = thread
    · subst same
      rw [Function.update_self] at held ⊢
      rcases pushed held with none | ⟨unchanged, before⟩
      · simp [none]
      · rw [unchanged]
        exact anchored.plain other before
    · rw [Function.update_of_ne same] at held ⊢
      exact anchored.plain other held
  registering other held := by
    rw [stack]
    by_cases same : other = thread
    · subst same
      rw [Function.update_self] at held
      rcases registers held with before | empty
      · exact anchored.registering other before
      · exact empty
    · rw [Function.update_of_ne same] at held
      exact anchored.registering other held

/-- A registration puts the new state into the base, where no call is in progress. -/
theorem Anchored.newthread (anchored : Anchored process config.shared config.views)
    (deep
      : Deep process next
          (Function.update config.views thread ((config.views thread).next .newthread)))
    (allowed : (config.views thread).allows .newthread)
    (performed : perform config.shared thread .newthread = some next)
    : Anchored process next
        (Function.update config.views thread ((config.views thread).next .newthread)) := by
  have registered := (Option.some.inj performed).symm
  have empty := anchored.registering thread allowed.1
  have stack_calls : (next.stack .proto).calls = (config.shared.stack .proto).calls := by
    simp only [registered, Function.update_self]
    exact LuaStack.setTop_calls
  have base : (next.stack .proto).base
      = .thread config.shared.created :: (config.shared.stack .proto).base := by
    simp only [registered, Function.update_self]
    exact LuaStack.base_push (LuaStack.calls_eq_nil.mp empty)
  have only : ∀ other,
      (Function.update config.views thread ((config.views thread).next .newthread)
        other).held.isSome → other = thread := by
    intro other held
    by_contra apart
    rw [Function.update_of_ne apart] at held
    exact apart (anchored.owner_unique held (by simp [allowed.1]))
  exact {
    toDeep := deep
    anchored := by
      intro other id found
      rw [base, List.mem_cons]
      by_cases same : other = thread
      · subst same
        simp only [registered, Function.update_self, Option.some.injEq] at found
        exact Or.inl (congrArg Slot.thread found.symm)
      · simp only [registered, Function.update_of_ne same] at found
        exact Or.inr (anchored.anchored other id found)
    plain := by
      intro other held
      obtain rfl := only other held
      simp [View.next]
    registering := by
      intro other held
      rw [stack_calls]
      exact empty }

/-- An operation on `luaStateProto` leaves what is in its base. -/
theorem Anchored.work {op : StackOp} {stack : LuaStack}
    (anchored : Anchored process config.shared config.views)
    (allowed : (config.views thread).allows event)
    (deep
      : Deep process next
          (Function.update config.views thread ((config.views thread).next event)))
    (found : event.stackOp = some (.proto, op))
    (applied : (config.shared.stack .proto).apply thread op = some stack)
    (performed : next.stack .proto = stack) (key : next.key = config.shared.key)
    : Anchored process next
        (Function.update config.views thread ((config.views thread).next event)) := by
  have held := View.held_of_stackOp allowed found
  have only : ∀ other,
      (Function.update config.views thread ((config.views thread).next event)
        other).held.isSome → other = thread := by
    intro other otherHeld
    by_contra apart
    rw [Function.update_of_ne apart] at otherHeld
    exact apart (anchored.owner_unique otherHeld held)
  refine ⟨deep, ?anchored, ?plain, ?registering⟩
  case anchored =>
    intro other id keyed
    rw [key] at keyed
    rw [performed]
    refine LuaStack.mem_base_apply applied (anchored.anchored other id keyed) ?_ ?_
    · intro holds
      rcases holds with ⟨kind, ends⟩ | rfl
      · obtain ⟨rest, calls⟩ := View.calls_ends allowed found ends
        exact anchored.busy allowed found calls
      · obtain ⟨rest, calls⟩ := View.calls_settop allowed found
        exact anchored.busy allowed found calls
    · rintro kind taken rfl idle taken_slot
      rcases View.call_proto allowed found with ⟨_, _, count, _⟩ | ⟨_, _, rest, calls⟩
      · rw [count] at taken_slot
        cases anchored.plain thread held _ taken_slot
      · exact anchored.busy allowed found calls idle
  case plain =>
    intro other otherHeld
    obtain rfl := only other otherHeld
    rw [performed, Function.update_self, View.pushed_stackOp found]
    cases op with
    | settop =>
        cases applied
        rw [LuaStack.top_setTop]
        simp
    | push =>
        cases applied
        rw [LuaStack.push, LuaStack.top_setTop]
        intro slot member
        rcases List.mem_cons.mp member with rfl | older
        · rfl
        · exact anchored.plain other held slot older
    | call kind taken => simp [StackOp.onPushed]
    | ret kind => simp [StackOp.onPushed]
    | throw => simp [StackOp.onPushed]
  case registering =>
    intro other registering
    obtain rfl := only other (by simp [registering])
    have notMutex := Event.stackOp_ne found
    rw [Function.update_self, View.next_held notMutex.1 notMutex.2] at registering
    have empty := LuaStack.calls_eq_nil.mp (anchored.registering other registering)
    rcases View.proto_use allowed found with ⟨kind, rest, calls⟩ | ⟨site, place, site_calls⟩
    · exact absurd empty (anchored.busy allowed found calls)
    · obtain rfl := Option.some.inj (registering.symm.trans place)
      cases site_calls

/-- Every allowed event that meets the condition leaves the registered states anchored. -/
theorem Anchored.step (anchored : Anchored process config.shared config.views)
    (free : registersFree config thread) (found : config.rest thread = event :: later)
    (allowed : (config.views thread).allows event)
    (performed : perform config.shared thread event = some next)
    : Anchored process next
        (Function.update config.views thread ((config.views thread).next event)) := by
  have deep := anchored.toDeep.step allowed performed
  rcases perform_cases performed with ⟨site, rfl, _, same⟩ | ⟨rfl, same⟩ | ⟨rfl, _⟩
    | ⟨state, op, ref, stack, works, at', applied, same⟩ | ⟨isLocal, same⟩
  · refine anchored.calm deep (by rw [same]) (by rw [same]) (fun _ => Or.inl rfl) ?_
    intro registers
    cases registers
    refine Or.inr (LuaStack.calls_eq_nil.mpr ?_)
    simpa [registersFree, found] using free
  · exact anchored.calm deep (by rw [same]) (by rw [same]) (fun held => nomatch held)
      (fun held => nomatch held)
  · exact anchored.newthread deep allowed performed
  · have notMutex := Event.stackOp_ne works
    have held : ((config.views thread).next event).held = (config.views thread).held :=
      View.next_held notMutex.1 notMutex.2
    cases state with
    | proto =>
        cases at'
        exact anchored.work allowed deep works applied (by simp [same]) (by rw [same])
    | own =>
        obtain ⟨mine, _, rfl⟩ := Option.map_eq_some_iff.mp at'
        refine anchored.calm deep (by simp [same]) (by rw [same]) ?_ ?_
        · rw [held, View.pushed_stackOp works]
          intro holds
          cases op <;> simp [StackOp.onPushed, holds]
        · rw [held]
          exact Or.inl
  · have notMutex := Event.isLocal_ne isLocal
    have held : ((config.views thread).next event).held = (config.views thread).held :=
      View.next_held notMutex.1 notMutex.2
    refine anchored.calm deep (by rw [same]) (by rw [same]) ?_ ?_
    · rw [held, View.pushed_local isLocal]
      exact fun holds => Or.inr ⟨rfl, holds⟩
    · rw [held]
      exact Or.inl

end Step

/-- Every `lua_State` stored under `lua_thread_key` is referenced from the stack of
`luaStateProto`.
-/
def StatesAnchored (shared : Shared) : Prop :=
  ∀ thread id, shared.key thread = some id → (shared.stack .proto).Holds (.thread id)

/-- In a run in which no thread registers while a call on `luaStateProto` is in progress, every
registered state stays anchored. Witness: registrations go to the base of the stack, and
nothing takes them from there.
-/
theorem Process.statesAnchored (process : Process) {config : Config Tid Event Shared View}
    (run : process.Reaches registersFree config)
    : StatesAnchored config.shared := by
  have invariant
      : (∀ thread, discipline.Accepts (config.views thread) (config.rest thread))
        ∧ Anchored process config.shared config.views :=
    run.invariant process.accepted process.start_anchored
      fun _ _ _ _ _ anchored free found allowed performed =>
        anchored.step free found allowed performed
  intro thread id keyed
  exact Or.inl (invariant.2.anchored thread id keyed)

/-- Where a hooked call registers its thread before any callback runs, its state is anchored. -/
theorem sleepingCallback_statesAnchored
    : ∃ config, sleepingCallback.Reaches registersFree config
        ∧ config.shared.key (.app 1) = some 0
        ∧ StatesAnchored config.shared := by
  obtain ⟨config, run, key⟩ := Option.map_eq_some_iff.mp
    (show (sleepingCallback.start.exec perform discipline registersFree
        (List.replicate 5 (.app 1))).map (fun config => config.shared.key (.app 1))
      = some (some 0) from rfl)
  have reached := Config.exec_reaches run
  exact ⟨config, reached, key, sleepingCallback.statesAnchored reached⟩

/-- A thread that registers while a callback sleeps loses its anchor when the callback's
`labrea.usleep` returns.
-/
theorem sleepingCallback_loses_anchor
    : ¬ ∀ (process : Process) (config : Config Tid Event Shared View),
        process.Reaches (fun _ _ => true) config → StatesAnchored config.shared := by
  intro always
  obtain ⟨config, run, facts⟩ := Option.map_eq_some_iff.mp
    (show (sleepingCallback.start.exec perform discipline (fun _ _ => true)
        (List.replicate 8 .timer ++ List.replicate 5 (.app 1)
          ++ List.replicate 3 .timer)).map
        (fun config => (config.shared.key (.app 1), config.shared.stack .proto))
      = some (some 0, ⟨[⟨.timer, .lua, []⟩], []⟩) from rfl)
  obtain ⟨key, stack⟩ := Prod.mk.inj facts
  have holds := always sleepingCallback config (Config.exec_reaches run) (.app 1) 0 key
  simp [stack, LuaStack.Holds] at holds

end Labrea
