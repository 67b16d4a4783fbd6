import Labrea.Anchors

/-! How many values are on the base of `luaStateProto`. A registration leaves the new state
there, and a call that fails leaves its message; nothing ever takes them off.
-/

namespace Labrea

open Interleaving (Config)

/-- `LUA_MINSTACK`: the slots of a C caller that does not ask for more. -/
def luaMinstack : Nat := 20

/-- The next step does not lock the mutex to push more on the base of `luaStateProto` than
there is room for.
-/
def hasRoom (config : Config Tid Event Shared View) (thread : Tid) : Bool :=
  match config.rest thread with
  | .lock site :: _ =>
      !(config.shared.stack .proto).frames.isEmpty
        || (config.shared.stack .proto).base.length + site.pushes ≤ luaMinstack
  | _ => true

/-- Outside any call the base has room for `due` more values, and during one for the message
that the call may leave.
-/
def LuaStack.Room (due : Nat) (stack : LuaStack) : Prop :=
  if stack.frames = [] then
    stack.base.length + due ≤ luaMinstack
  else
    stack.base.length < luaMinstack

theorem LuaStack.room_nil {base : List Slot} {due : Nat}
    : LuaStack.Room due ⟨[], base⟩ ↔ base.length + due ≤ luaMinstack :=
  Iff.of_eq (if_pos rfl)

theorem LuaStack.room_cons {frame : LuaFrame} {below : List LuaFrame} {base : List Slot}
    {due : Nat}
    : LuaStack.Room due ⟨frame :: below, base⟩ ↔ base.length < luaMinstack :=
  Iff.of_eq (if_neg (List.cons_ne_nil frame below))

theorem LuaStack.Room.mono {stack : LuaStack} {due less : Nat} (room : stack.Room due)
    (le : less ≤ due)
    : stack.Room less := by
  obtain ⟨frames, base⟩ := stack
  cases frames with
  | nil => exact room_nil.mpr (Nat.le_trans (Nat.add_le_add_left le _) (room_nil.mp room))
  | cons frame below => exact room

theorem LuaStack.Room.base_bound {stack : LuaStack} {due : Nat} (room : stack.Room due)
    : stack.base.length ≤ luaMinstack := by
  obtain ⟨frames, base⟩ := stack
  cases frames with
  | nil => exact Nat.le_trans (Nat.le_add_right _ _) (room_nil.mp room)
  | cons frame below => exact Nat.le_of_lt (room_cons.mp room)

/-- A value pushed on the base is one that was due. -/
theorem LuaStack.Room.push {stack : LuaStack} {due : Nat} {slot : Slot} (room : stack.Room due)
    (outside : stack.frames = [] → 0 < due)
    : (stack.push slot).Room (due - 1) := by
  obtain ⟨frames, base⟩ := stack
  cases frames with
  | nil =>
      have positive := outside rfl
      have fits := room_nil.mp room
      refine room_nil.mpr ?_
      change (slot :: base).length + (due - 1) ≤ luaMinstack
      rw [List.length_cons]
      omega
  | cons frame below => exact room

/-- The end of a call leaves room for its message, and nothing else is due then. -/
theorem LuaStack.Room.tail {frame : LuaFrame} {below : List LuaFrame} {base : List Slot}
    {due : Nat} (room : LuaStack.Room due ⟨frame :: below, base⟩)
    : LuaStack.Room 0 ⟨below, base⟩ ∧ (LuaStack.push .value ⟨below, base⟩).Room 0 := by
  have fits := room_cons.mp room
  cases below with
  | nil => exact ⟨room_nil.mpr (Nat.le_of_lt fits), room_nil.mpr fits⟩
  | cons next below => exact ⟨room_cons.mpr fits, room_cons.mpr fits⟩

/-- What is still due after an operation: a call and its end leave nothing due. -/
def StackOp.onDue (due : Nat) : StackOp → Nat
  | .settop => due
  | .push => due - 1
  | _ => 0

/-- An operation leaves room: a call takes its function off the base, which makes room for its
message.
-/
theorem LuaStack.Room.apply {stack next : LuaStack} {due : Nat} {thread : Tid} {op : StackOp}
    (room : stack.Room due) (applied : stack.apply thread op = some next)
    (pushes : op = .push → stack.frames = [] → 0 < due)
    (takes : ∀ kind taken, op = .call kind taken → stack.frames = [] → 0 < taken)
    : next.Room (op.onDue due) := by
  obtain ⟨frames, base⟩ := stack
  cases op with
  | push =>
      cases applied
      exact room.push (pushes rfl)
  | settop =>
      cases applied
      cases frames with
      | nil =>
          refine room_nil.mpr (Nat.le_trans ?_ (room_nil.mp room))
          exact Nat.add_le_add_right (Nat.zero_le _) due
      | cons frame below => exact room
  | call kind taken =>
      cases applied
      cases frames with
      | nil =>
          have positive := takes kind taken rfl rfl
          have fits : base.length ≤ luaMinstack := room.base_bound
          have left : (base.drop taken).length < luaMinstack := by
            rw [List.length_drop]
            have some_room : 0 < luaMinstack := by decide
            omega
          exact room_cons.mpr left
      | cons frame below => exact room
  | ret kind =>
      cases applied
      cases frames with
      | nil => exact room_nil.mpr (Nat.zero_le _)
      | cons frame below => exact room.tail.1
  | throw =>
      simp only [LuaStack.apply, LuaStack.throw] at applied
      cases frames with
      | nil => cases applied
      | cons frame below =>
          by_cases newest : frame.owner = thread ∧ frame.kind = .lua
          · cases (if_pos newest).symm.trans applied
            exact room.tail.2
          · cases (if_neg newest).symm.trans applied

-----------------------------------------------------------------------------------------
-- Room in the process
-----------------------------------------------------------------------------------------

theorem View.due_stackOp {view : View} {event : Event} {state : LState} {op : StackOp}
    (found : event.stackOp = some (state, op))
    : (view.next event).due ≤ view.due
      ∧ (state = .proto → (view.next event).due = op.onDue view.due) := by
  cases event <;> simp only [Event.stackOp, Option.some.injEq, Prod.mk.injEq, reduceCtorEq]
    at found <;> obtain ⟨rfl, rfl⟩ := found
  case push state =>
    cases state with
    | proto => exact ⟨Nat.sub_le _ _, fun _ => rfl⟩
    | own =>
        refine ⟨Nat.le_refl _, fun isProto => ?_⟩
        cases isProto
  case settop state => exact ⟨Nat.le_refl _, fun _ => rfl⟩
  all_goals exact ⟨Nat.zero_le _, fun _ => rfl⟩

/-- A value is pushed in a frame of labrea's own code or is one that was due. -/
theorem View.push_proto {view : View} {event : Event} (allowed : view.allows event)
    (found : event.stackOp = some (.proto, .push))
    : (∃ rest, view.calls .proto = .c :: rest) ∨ 0 < view.due := by
  cases event <;> simp only [Event.stackOp, Option.some.injEq, Prod.mk.injEq, reduceCtorEq]
    at found
  case push state =>
    cases found.1
    rcases allowed.2 with inside | outside
    · obtain ⟨rest, frames⟩ := List.head?_eq_some_iff.mp inside
      exact Or.inl ⟨rest.filterMap (Frame.kindOn .proto), by rw [View.calls, frames]; rfl⟩
    · exact Or.inr outside.2.1
  all_goals exact absurd found.2 (by simp)

/-- A call takes at least its function, or begins inside Lua code. -/
theorem View.take_proto {view : View} {event : Event} {kind : FrameKind} {taken : Nat}
    (allowed : view.allows event) (found : event.stackOp = some (.proto, .call kind taken))
    : 0 < taken ∨ ∃ rest, view.calls .proto = .lua :: rest := by
  rcases View.call_proto allowed found with ⟨rfl, _, _, _⟩ | ⟨_, _, inside⟩
  · left
    cases event <;> simp only [Event.stackOp, Option.some.injEq, Prod.mk.injEq, reduceCtorEq,
      StackOp.call.injEq, and_false, false_and] at found
    case pcall state args => omega
  · exact Or.inr inside

theorem View.due_local {view : View} {event : Event} (isLocal : event.isLocal)
    : (view.next event).due = view.due := by
  cases event <;> first | rfl | exact nomatch isLocal

/-- The base of `luaStateProto` has room for what the thread that owns the mutex will push. -/
structure Roomy (process : Process) (shared : Shared) (views : Tid → View)
    : Prop extends Deep process shared views where
  free : (shared.stack .proto).Room 0
  room
    : ∀ thread, (views thread).held.isSome → (shared.stack .proto).Room (views thread).due

theorem Process.start_roomy (process : Process)
    : Roomy process process.start.shared process.start.views where
  toDeep := process.start_deep
  free := LuaStack.room_nil.mpr (by decide)
  room _ held := nomatch held

section Step

variable {process : Process} {config : Config Tid Event Shared View} {next : Shared}
  {thread : Tid} {event : Event} {later : List Event}

/-- A lock that meets the condition finds room for what is due under it. -/
theorem hasRoom_lock {site : Site} (meets : hasRoom config thread)
    (found : config.rest thread = .lock site :: later)
    (free : (config.shared.stack .proto).Room 0)
    : (config.shared.stack .proto).Room site.pushes := by
  rw [hasRoom, found] at meets
  match stack : config.shared.stack .proto with
  | ⟨[], base⟩ =>
      rw [stack] at meets
      exact LuaStack.room_nil.mpr (by simpa using meets)
  | ⟨frame :: below, base⟩ =>
      rw [stack] at free
      exact free

/-- What a step has to show: the room its own thread still needs, and that other threads own
the mutex only where the stack is as before.
-/
theorem Roomy.of_thread (roomy : Roomy process config.shared config.views)
    (deep
      : Deep process next
          (Function.update config.views thread ((config.views thread).next event)))
    (others
      : (∀ other, (config.views other).held.isSome → other = thread)
        ∨ next.stack .proto = config.shared.stack .proto)
    (free : (next.stack .proto).Room 0)
    (room
      : ((config.views thread).next event).held.isSome
        → (next.stack .proto).Room ((config.views thread).next event).due)
    : Roomy process next
        (Function.update config.views thread ((config.views thread).next event)) where
  toDeep := deep
  free := free
  room other held := by
    by_cases same : other = thread
    · subst same
      rw [Function.update_self] at held ⊢
      exact room held
    · rw [Function.update_of_ne same] at held ⊢
      rcases others with only | stack
      · exact absurd (only other held) same
      · rw [stack]
        exact roomy.room other held

/-- Every allowed event that meets the condition leaves room. -/
theorem Roomy.step (roomy : Roomy process config.shared config.views)
    (meets : hasRoom config thread) (found : config.rest thread = event :: later)
    (allowed : (config.views thread).allows event)
    (performed : perform config.shared thread event = some next)
    : Roomy process next
        (Function.update config.views thread ((config.views thread).next event)) := by
  have deep := roomy.toDeep.step allowed performed
  have only (held : (config.views thread).held.isSome) (other : Tid)
      (otherHeld : (config.views other).held.isSome)
      : other = thread :=
    roomy.owner_unique otherHeld held
  rcases perform_cases performed with ⟨site, rfl, _, same⟩ | ⟨rfl, same⟩ | ⟨rfl, same⟩
    | ⟨state, op, ref, stack, works, at', applied, same⟩ | ⟨isLocal, same⟩
  · have unchanged : next.stack .proto = config.shared.stack .proto := by rw [same]
    refine roomy.of_thread deep (Or.inr unchanged) (unchanged ▸ roomy.free) fun _ => ?_
    rw [unchanged]
    exact hasRoom_lock meets found roomy.free
  · have unchanged : next.stack .proto = config.shared.stack .proto := by rw [same]
    exact roomy.of_thread deep (Or.inr unchanged) (unchanged ▸ roomy.free) fun held => nomatch held
  · have held : (config.views thread).held.isSome := by rw [allowed.1]; rfl
    have pushed : (next.stack .proto).Room ((config.views thread).due - 1) := by
      simp only [same, Function.update_self]
      exact (roomy.room thread held).push fun _ => allowed.2.2
    exact roomy.of_thread deep (Or.inl (only held)) (pushed.mono (Nat.zero_le _)) fun _ => pushed
  · have held := View.held_of_stackOp allowed works
    obtain ⟨less, due⟩ := View.due_stackOp works
    cases state with
    | proto =>
        cases at'
        have after : (next.stack .proto).Room ((config.views thread).next event).due := by
          simp only [same, Function.update_self]
          rw [due rfl]
          refine (roomy.room thread held).apply applied ?_ ?_
          · rintro rfl outside
            rcases View.push_proto allowed works with ⟨rest, calls⟩ | positive
            · exact absurd outside (roomy.busy allowed works calls)
            · exact positive
          · rintro kind taken rfl outside
            rcases View.take_proto allowed works with positive | ⟨rest, calls⟩
            · exact positive
            · exact absurd outside (roomy.busy allowed works calls)
        exact roomy.of_thread deep (Or.inl (only held)) (after.mono (Nat.zero_le _)) fun _ => after
    | own =>
        obtain ⟨mine, _, rfl⟩ := Option.map_eq_some_iff.mp at'
        have unchanged : next.stack .proto = config.shared.stack .proto := by simp [same]
        refine roomy.of_thread deep (Or.inr unchanged) (unchanged ▸ roomy.free) fun _ => ?_
        rw [unchanged]
        exact (roomy.room thread held).mono less
  · have notMutex := Event.isLocal_ne isLocal
    have unchanged : next.stack .proto = config.shared.stack .proto := by rw [same]
    refine roomy.of_thread deep (Or.inr unchanged) (unchanged ▸ roomy.free) fun held => ?_
    rw [View.next_held notMutex.1 notMutex.2] at held
    rw [unchanged, View.due_local isLocal]
    exact roomy.room thread held

end Step

/-- Every thread writes once with a before hook. -/
def manyThreads : Process where
  functions := []
  ticks := []
  calls _ := [writeCall ⟨true, false, false⟩ (.value (.returns [] .nil))]
  main := 0
  exiting := .returns [] .nil
  later := []
  errno _ := 0

end Labrea
