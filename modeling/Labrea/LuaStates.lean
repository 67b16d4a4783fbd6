import Labrea.MutualExclusion

/-! Which thread uses which `lua_State`, across all interleavings: the states of the
application threads have one user each, and `luaStateProto` has two.
-/

namespace Labrea

open Interleaving (Config)

/-- The frame that a frame of a thread has on the stack of a state. -/
def Frame.kindOn (state : LState) : Frame → Option FrameKind
  | .lua other => if state = other then some .lua else none
  | .ccall other => if state = other then some .c else none
  | .original _ => none

/-- The calls of a thread in progress on a state, the newest first. -/
def View.calls (view : View) (state : LState) : List FrameKind :=
  view.frames.filterMap (Frame.kindOn state)

/-- What an operation does to the calls in progress. -/
def StackOp.onCalls {α : Type} (mark : FrameKind → α) : StackOp → List α → List α
  | .settop, calls | .push, calls => calls
  | .call kind _, calls => mark kind :: calls
  | .ret _, calls | .throw, calls => calls.tail

/-- The kind of the newest call that an operation ends. -/
def StackOp.ends : StackOp → Option FrameKind
  | .ret kind => some kind
  | .throw => some .lua
  | _ => none

/-- An event on a stack changes the calls on its own state only, as the operation says. -/
theorem View.calls_stackOp {view : View} {event : Event} {state : LState} {op : StackOp}
    (allowed : view.allows event) (found : event.stackOp = some (state, op)) (other : LState)
    : (view.next event).calls other
      = if other = state then op.onCalls id (view.calls other) else view.calls other := by
  cases event <;> simp only [Event.stackOp, Option.some.injEq, Prod.mk.injEq, reduceCtorEq]
    at found <;> obtain ⟨rfl, rfl⟩ := found
  case settop => exact (ite_self _).symm
  case push state =>
    refine Eq.trans ?_ (ite_self _).symm
    cases state <;> rfl
  case pcall state args =>
    by_cases same : other = state <;>
      simp [View.calls, View.next, Frame.kindOn, StackOp.onCalls, same]
  case ccall state =>
    by_cases same : other = state <;>
      simp [View.calls, View.next, Frame.kindOn, StackOp.onCalls, same]
  case pcallReturn state | pcallError state | creturn state =>
    obtain ⟨rest, frames⟩ := List.head?_eq_some_iff.mp allowed.2
    by_cases same : other = state <;>
      simp [View.calls, View.next, frames, Frame.kindOn, StackOp.onCalls, same]

/-- A frame of `luaStateProto` is emptied only by a script function that runs in it. -/
theorem View.calls_settop {view : View} {event : Event} (allowed : view.allows event)
    (found : event.stackOp = some (.proto, .settop))
    : ∃ rest, view.calls .proto = .c :: rest := by
  cases event <;> simp only [Event.stackOp, Option.some.injEq, Prod.mk.injEq, reduceCtorEq,
    and_false, and_true] at found
  subst found
  obtain ⟨rest, frames⟩ := List.head?_eq_some_iff.mp allowed.2
  rw [View.calls, frames]
  simp [Frame.kindOn]

/-- An operation on a stack needs the mutex. -/
theorem View.held_of_stackOp {view : View} {event : Event} {work : LState × StackOp}
    (allowed : view.allows event) (found : event.stackOp = some work)
    : view.held.isSome := by
  refine View.held_of_usesLua allowed ?_
  cases event <;> first | rfl | exact nomatch found

/-- Every other event leaves the calls in progress as they are. -/
theorem View.calls_other {view : View} {event : Event} (allowed : view.allows event)
    (found : event.stackOp = none) (state : LState)
    : (view.next event).calls state = view.calls state := by
  cases event
  case originalReturn caller =>
    obtain ⟨rest, frames⟩ := List.head?_eq_some_iff.mp allowed
    simp [View.calls, View.next, frames, List.filterMap_cons, Frame.kindOn]
  case settop | push | pcall | ccall | pcallReturn | pcallError | creturn => cases found
  all_goals rfl

/-- A call can be ended only where it is the newest of its thread on its state. -/
theorem View.calls_ends {view : View} {event : Event} {state : LState} {op : StackOp}
    {kind : FrameKind} (allowed : view.allows event)
    (found : event.stackOp = some (state, op)) (ends : op.ends = some kind)
    : ∃ rest, view.calls state = kind :: rest := by
  cases event <;> simp only [Event.stackOp, Option.some.injEq, Prod.mk.injEq, reduceCtorEq]
    at found <;> obtain ⟨rfl, rfl⟩ := found <;>
    simp only [StackOp.ends, Option.some.injEq, reduceCtorEq] at ends <;> subst ends
  case pcallReturn | pcallError | creturn =>
    obtain ⟨rest, frames⟩ := List.head?_eq_some_iff.mp allowed.2
    rw [View.calls, frames]
    simp [Frame.kindOn]

/-- The calls in progress on a stack with the threads they belong to, the newest first. -/
def LuaStack.calls (stack : LuaStack) : List (Tid × FrameKind) :=
  stack.frames.map fun frame => (frame.owner, frame.kind)

@[simp] theorem LuaStack.setTop_calls {stack : LuaStack} {slots : List Slot}
    : (stack.setTop slots).calls = stack.calls := by
  unfold LuaStack.setTop LuaStack.calls
  split <;> simp_all

/-- An operation of a thread changes the calls on the stack as it changes its own. -/
theorem LuaStack.apply_calls {stack next : LuaStack} {thread : Tid} {op : StackOp}
    (applied : stack.apply thread op = some next)
    : next.calls = op.onCalls (fun kind => (thread, kind)) stack.calls := by
  cases op with
  | settop =>
      cases applied
      exact setTop_calls
  | push =>
      cases applied
      exact setTop_calls
  | call kind taken =>
      cases applied
      have caller : (stack.setTop (stack.top.drop taken)).calls = stack.calls := setTop_calls
      exact congrArg ((thread, kind) :: ·) caller
  | ret kind =>
      cases applied
      unfold LuaStack.poscall LuaStack.calls
      split <;> simp_all [StackOp.onCalls]
  | throw =>
      simp only [LuaStack.apply, LuaStack.throw] at applied
      split at applied
      · exact nomatch applied
      case _ frame below frames =>
        split at applied
        · cases applied
          rw [LuaStack.push, setTop_calls]
          simp [StackOp.onCalls, LuaStack.calls, frames]
        · exact nomatch applied

theorem LuaStack.calls_eq_nil {stack : LuaStack}
    : stack.calls = [] ↔ stack.frames = [] :=
  List.map_eq_nil_iff

/-- Two lists of calls grow and shrink by the same operation alike, where an end finds a
call in the shorter one.
-/
theorem StackOp.onCalls_length {α β : Type} {op : StackOp} {markAll : FrameKind → α}
    {markOwn : FrameKind → β} {all : List α} {own : List β}
    (ends : (∃ kind, op.ends = some kind) → own ≠ []) (le : own.length ≤ all.length)
    : (op.onCalls markAll all).length + own.length
      = all.length + (op.onCalls markOwn own).length := by
  cases op with
  | settop | push => rfl
  | call kind taken =>
      simp only [StackOp.onCalls, List.length_cons]
      omega
  | ret kind =>
      have some_call := List.length_pos_iff.mpr (ends ⟨kind, rfl⟩)
      simp only [StackOp.onCalls, List.length_tail]
      omega
  | throw =>
      have some_call := List.length_pos_iff.mpr (ends ⟨.lua, rfl⟩)
      simp only [StackOp.onCalls, List.length_tail]
      omega

/-- A thread whose calls are all there is on a stack keeps it so. -/
theorem StackOp.onCalls_map {op : StackOp} {thread : Tid} {calls : List FrameKind}
    : op.onCalls (fun kind => (thread, kind)) (calls.map fun kind => (thread, kind))
      = (op.onCalls id calls).map fun kind => (thread, kind) := by
  cases op <;> simp [StackOp.onCalls]

-----------------------------------------------------------------------------------------
-- The states of the application threads
-----------------------------------------------------------------------------------------

/-- Every thread has a state of its own under `lua_thread_key`, on which it alone has calls,
and threads other than the timer thread and the exiting one have none on `luaStateProto`.
-/
structure Owned (process : Process) (shared : Shared) (views : Tid → View)
    : Prop extends Disciplined process shared views where
  key : ∀ thread, (shared.key thread).isSome = (views thread).registered
  fresh : ∀ thread id, shared.key thread = some id → id < shared.created
  distinct
    : ∀ first second id, shared.key first = some id → shared.key second = some id
      → first = second
  own
    : ∀ thread id, shared.key thread = some id
      → (shared.stack (.thread id)).calls
        = ((views thread).calls .own).map fun kind => (thread, kind)
  unmade : ∀ id, shared.created ≤ id → (shared.stack (.thread id)).calls = []
  keyless : ∀ thread, shared.key thread = none → (views thread).calls .own = []
  bystander : ∀ thread, process.role thread = .app → (views thread).calls .proto = []

theorem Process.start_owned (process : Process)
    : Owned process process.start.shared process.start.views where
  toDisciplined := process.start_disciplined
  key _ := rfl
  fresh _ _ found := nomatch found
  distinct _ _ _ found := nomatch found
  own _ _ found := nomatch found
  unmade _ _ := rfl
  keyless _ _ := rfl
  bystander _ _ := rfl

/-- Only the timer thread and the exiting one begin calls on `luaStateProto`. -/
theorem View.Sound.callsProto_role {view : View} {site : Site} (sound : view.Sound)
    (held : view.held = some site) (calls : site.callsProto)
    : view.role ≠ .app := by
  have openTo := sound.place site held
  cases site
  case timerLoop => simp [show view.role = .timer from openTo]
  case destroyScriptingState => simp [show view.role = .exiting from openTo]
  all_goals exact nomatch calls

/-- A thread works on `luaStateProto` where it has a call in progress there, or locked the
mutex to make one.
-/
theorem View.proto_use {view : View} {event : Event} {op : StackOp}
    (allowed : view.allows event) (found : event.stackOp = some (.proto, op))
    : (∃ kind rest, view.calls .proto = kind :: rest)
      ∨ ∃ site, view.held = some site ∧ site.callsProto := by
  have busy {frame : Frame} {kind : FrameKind} (inside : view.inside frame)
      (onProto : frame.kindOn .proto = some kind)
      : ∃ kind rest, view.calls .proto = kind :: rest := by
    obtain ⟨rest, frames⟩ := List.head?_eq_some_iff.mp inside
    exact ⟨kind, rest.filterMap (Frame.kindOn .proto), by
      rw [View.calls, frames, List.filterMap_cons_some onProto]⟩
  cases event <;> simp only [Event.stackOp, Option.some.injEq, Prod.mk.injEq, reduceCtorEq]
    at found <;> obtain ⟨rfl, rfl⟩ := found
  case settop => exact Or.inl (busy allowed.2 rfl)
  case push =>
    exact allowed.2.imp (fun inside => busy inside rfl) fun outside => outside.2.2
  case pcall => exact Or.inr allowed.1
  case pcallReturn | pcallError | ccall | creturn => exact Or.inl (busy allowed.2 rfl)

/-- An ordinary application thread never comes to work on `luaStateProto`. -/
theorem View.Sound.bystander {view : View} {event : Event} {op : StackOp}
    (sound : view.Sound) (allowed : view.allows event)
    (found : event.stackOp = some (.proto, op)) (idle : view.calls .proto = [])
    (app : view.role = .app)
    : False := by
  rcases View.proto_use allowed found with ⟨kind, rest, busy⟩ | ⟨site, held, calls⟩
  · exact absurd (idle.symm.trans busy) (by simp)
  · exact sound.callsProto_role held calls app

theorem View.next_registered {view : View} {event : Event} (notNew : event ≠ .newthread)
    : (view.next event).registered = view.registered := by
  cases event
  case newthread => exact absurd rfl notNew
  case push state => cases state <;> rfl
  all_goals rfl

section Step

variable {process : Process} {shared next : Shared} {views : Tid → View} {thread : Tid}
  {event : Event}

/-- The calls in progress after an event that works on no stack. -/
theorem calls_of_noStack (allowed : (views thread).allows event)
    (noStack : event.stackOp = none) (other : Tid) (state : LState)
    : (Function.update views thread ((views thread).next event) other).calls state
      = (views other).calls state := by
  by_cases same : other = thread
  · subst same
    rw [Function.update_self, View.calls_other allowed noStack]
  · rw [Function.update_of_ne same]

/-- The calls in progress of the thread that works on a stack. -/
theorem calls_of_stackOp {state : LState} {op : StackOp}
    (allowed : (views thread).allows event) (found : event.stackOp = some (state, op))
    (other : LState)
    : (Function.update views thread ((views thread).next event) thread).calls other
      = if other = state then op.onCalls id ((views thread).calls other)
        else (views thread).calls other := by
  rw [Function.update_self]
  exact View.calls_stackOp allowed found other

/-- An event works on the stack of `luaStateProto`, or leaves the calls in progress there and
in every view of it. Witness: the function of a new thread is pushed outside any call.
-/
theorem protoCalls_cases (allowed : (views thread).allows event)
    (performed : perform shared thread event = some next)
    : (∃ op, event.stackOp = some (.proto, op)
        ∧ (shared.stack .proto).apply thread op = some (next.stack .proto))
      ∨ ((∀ other,
            (Function.update views thread ((views thread).next event) other).calls .proto
              = (views other).calls .proto)
          ∧ (next.stack .proto).calls = (shared.stack .proto).calls) := by
  have unworked (noStack : event.stackOp = none) (other : Tid) :=
    calls_of_noStack allowed noStack other .proto
  rcases perform_cases performed with ⟨site, rfl, _, same⟩ | ⟨rfl, same⟩ | ⟨rfl, same⟩
    | ⟨state, op, ref, stack, works, at', applied, same⟩ | ⟨isLocal, same⟩
  · exact Or.inr ⟨unworked rfl, by rw [same]⟩
  · exact Or.inr ⟨unworked rfl, by rw [same]⟩
  · refine Or.inr ⟨unworked rfl, ?_⟩
    simp only [same, Function.update_self]
    exact LuaStack.setTop_calls
  · cases state with
    | proto =>
        cases at'
        exact Or.inl ⟨op, works, by simpa [same] using applied⟩
    | own =>
        obtain ⟨mine, _, rfl⟩ := Option.map_eq_some_iff.mp at'
        refine Or.inr ⟨fun other => ?_, by simp [same]⟩
        by_cases worker : other = thread
        · subst worker
          rw [calls_of_stackOp allowed works, if_neg (by simp)]
        · rw [Function.update_of_ne worker]
  · have noStack : event.stackOp = none := by
      cases event <;> first | rfl | cases isLocal
    exact Or.inr ⟨unworked noStack, by rw [same]⟩

/-- An event that works on no stack and registers nothing. -/
theorem Owned.calm (owned : Owned process shared views)
    (allowed : (views thread).allows event)
    (disciplined
      : Disciplined process next (Function.update views thread ((views thread).next event)))
    (noStack : event.stackOp = none) (notNew : event ≠ .newthread)
    (same
      : next.key = shared.key ∧ next.created = shared.created ∧ next.stack = shared.stack)
    : Owned process next (Function.update views thread ((views thread).next event)) := by
  obtain ⟨key, created, stack⟩ := same
  have calls := calls_of_noStack allowed noStack
  have registered : ∀ other,
      (Function.update views thread ((views thread).next event) other).registered
        = (views other).registered := by
    intro other
    by_cases same : other = thread
    · subst same
      rw [Function.update_self, View.next_registered notNew]
    · rw [Function.update_of_ne same]
  exact {
    toDisciplined := disciplined
    key := by simpa only [key, registered] using owned.key
    fresh := by simpa only [key, created] using owned.fresh
    distinct := by simpa only [key] using owned.distinct
    own := by simpa only [key, stack, calls] using owned.own
    unmade := by simpa only [created, stack] using owned.unmade
    keyless := by simpa only [key, calls] using owned.keyless
    bystander := by simpa only [calls] using owned.bystander }

/-- A registration gives its thread a new state, on which there are no calls. -/
theorem Owned.newthread (owned : Owned process shared views)
    (allowed : (views thread).allows .newthread)
    (performed : perform shared thread .newthread = some next)
    : Owned process next (Function.update views thread ((views thread).next .newthread)) := by
  have disciplined := owned.toDisciplined.step allowed performed
  have registered := (Option.some.inj performed).symm
  have key_self : next.key thread = some shared.created := by
    rw [registered]
    exact Function.update_self ..
  have key_other : ∀ other, other ≠ thread → next.key other = shared.key other := by
    intro other ne
    rw [registered]
    exact Function.update_of_ne ne ..
  have created : next.created = shared.created + 1 := by rw [registered]
  have stack : ∀ id, next.stack (.thread id) = shared.stack (.thread id) := by
    intro id
    have apart : LuaRef.thread id ≠ .proto := by simp
    simp only [registered, Function.update_of_ne apart]
  have calls := calls_of_noStack allowed rfl
  have keyless : shared.key thread = none := by
    have unset := (owned.key thread).trans allowed.2.1
    simpa using unset
  have older : ∀ other id, other ≠ thread → next.key other = some id → id ≠ shared.created := by
    intro other id ne found
    rw [key_other other ne] at found
    exact Nat.ne_of_lt (owned.fresh other id found)
  exact {
    toDisciplined := disciplined
    key := by
      intro other
      by_cases same : other = thread
      · subst same
        rw [key_self, Function.update_self]
        rfl
      · rw [key_other other same, Function.update_of_ne same]
        exact owned.key other
    fresh := by
      intro other id found
      by_cases same : other = thread
      · subst same
        rw [key_self, Option.some.injEq] at found
        omega
      · rw [key_other other same] at found
        have bound := owned.fresh other id found
        omega
    distinct := by
      intro first second id one two
      by_cases isFirst : first = thread <;> by_cases isSecond : second = thread
      · exact isFirst.trans isSecond.symm
      · rw [isFirst, key_self, Option.some.injEq] at one
        exact absurd one.symm (older second id isSecond two)
      · rw [isSecond, key_self, Option.some.injEq] at two
        exact absurd two.symm (older first id isFirst one)
      · rw [key_other first isFirst] at one
        rw [key_other second isSecond] at two
        exact owned.distinct first second id one two
    own := by
      intro other id found
      rw [calls, stack]
      by_cases same : other = thread
      · subst same
        rw [key_self, Option.some.injEq] at found
        rw [owned.keyless other keyless, owned.unmade id (Nat.le_of_eq found)]
        rfl
      · rw [key_other other same] at found
        exact owned.own other id found
    unmade := by
      intro id bound
      rw [stack]
      exact owned.unmade id (by omega)
    keyless := by
      intro other unset
      rw [calls]
      by_cases same : other = thread
      · subst same
        simp [key_self] at unset
      · rw [key_other other same] at unset
        exact owned.keyless other unset
    bystander := by simpa only [calls] using owned.bystander }

/-- An operation on a stack is one of the only thread that works on it. -/
theorem Owned.work {state : LState} {op : StackOp} {ref : LuaRef} {stack : LuaStack}
    (owned : Owned process shared views) (allowed : (views thread).allows event)
    (disciplined
      : Disciplined process next (Function.update views thread ((views thread).next event)))
    (found : event.stackOp = some (state, op)) (at' : shared.ref thread state = some ref)
    (applied : (shared.stack ref).apply thread op = some stack)
    (performed : next = { shared with stack := Function.update shared.stack ref stack })
    : Owned process next (Function.update views thread ((views thread).next event)) := by
  have notNew : event ≠ .newthread := by
    rintro rfl
    exact nomatch found
  have applies := LuaStack.apply_calls applied
  have calls_self := calls_of_stackOp allowed found
  have calls_other : ∀ other, other ≠ thread → ∀ state,
      (Function.update views thread ((views thread).next event) other).calls state
        = (views other).calls state := by
    intro other ne state
    rw [Function.update_of_ne ne]
  have key_same : next.key = shared.key := by rw [performed]
  have created_same : next.created = shared.created := by rw [performed]
  have stack_self : next.stack ref = stack := by
    rw [performed]
    exact Function.update_self ..
  have stack_other : ∀ other, other ≠ ref → next.stack other = shared.stack other := by
    intro other ne
    rw [performed]
    exact Function.update_of_ne ne ..
  exact {
    toDisciplined := disciplined
    key := by
      intro other
      rw [key_same]
      by_cases same : other = thread
      · subst same
        rw [Function.update_self, View.next_registered notNew]
        exact owned.key other
      · rw [Function.update_of_ne same]
        exact owned.key other
    fresh := by simpa only [key_same, created_same] using owned.fresh
    distinct := by simpa only [key_same] using owned.distinct
    own := by
      intro other id key
      rw [key_same] at key
      cases state with
      | proto =>
          cases at'
          rw [stack_other _ (by simp)]
          by_cases same : other = thread
          · subst same
            rw [calls_self, if_neg (by simp)]
            exact owned.own other id key
          · rw [calls_other other same]
            exact owned.own other id key
      | own =>
          obtain ⟨mine, keyed, rfl⟩ := Option.map_eq_some_iff.mp at'
          by_cases same : other = thread
          · subst same
            obtain rfl := Option.some.inj (key.symm.trans keyed)
            rw [calls_self, if_pos rfl, stack_self, applies, owned.own other id key]
            exact StackOp.onCalls_map
          · have apart : id ≠ mine := by
              rintro rfl
              exact same (owned.distinct other thread id key keyed)
            rw [calls_other other same, stack_other _ (by simpa using apart)]
            exact owned.own other id key
    unmade := by
      intro id bound
      rw [created_same] at bound
      have apart : LuaRef.thread id ≠ ref := by
        rintro rfl
        cases state with
        | proto => exact nomatch at'
        | own =>
            obtain ⟨mine, keyed, same⟩ := Option.map_eq_some_iff.mp at'
            have below := owned.fresh thread mine keyed
            obtain rfl : mine = id := by simpa using same
            exact absurd bound (Nat.not_le_of_lt below)
      rw [stack_other _ apart]
      exact owned.unmade id bound
    keyless := by
      intro other unset
      rw [key_same] at unset
      by_cases same : other = thread
      · subst same
        cases state with
        | proto =>
            rw [calls_self, if_neg (by simp)]
            exact owned.keyless other unset
        | own =>
            obtain ⟨mine, keyed, _⟩ := Option.map_eq_some_iff.mp at'
            exact absurd (keyed.symm.trans unset) (by simp)
      · rw [calls_other other same]
        exact owned.keyless other unset
    bystander := by
      intro other app
      by_cases same : other = thread
      · subst same
        have idle := owned.bystander other app
        cases state with
        | own =>
            rw [calls_self, if_neg (by simp)]
            exact idle
        | proto =>
            exact ((owned.sound other).bystander allowed found idle
              ((owned.role other).trans app)).elim
      · rw [calls_other other same]
        exact owned.bystander other app }

/-- Every allowed event keeps the states owned. -/
theorem Owned.step (owned : Owned process shared views)
    (allowed : (views thread).allows event)
    (performed : perform shared thread event = some next)
    : Owned process next (Function.update views thread ((views thread).next event)) := by
  have disciplined := owned.toDisciplined.step allowed performed
  rcases perform_cases performed with ⟨site, rfl, _, same⟩ | ⟨rfl, same⟩ | ⟨rfl, _⟩
    | ⟨state, op, ref, stack, found, at', applied, same⟩ | ⟨isLocal, same⟩
  · exact owned.calm allowed disciplined rfl (by simp) (by simp [same])
  · exact owned.calm allowed disciplined rfl (by simp) (by simp [same])
  · exact owned.newthread allowed performed
  · exact owned.work allowed disciplined found at' applied same
  · refine owned.calm allowed disciplined ?_ ?_ (by simp [same])
    · cases event <;> first | rfl | exact nomatch isLocal
    · rintro rfl
      exact nomatch isLocal

end Step

/-- A thread that works on `luaStateProto` is the timer thread or the exiting one. -/
theorem Owned.proto_user {process : Process} {shared : Shared} {views : Tid → View}
    {thread : Tid} {event : Event} {op : StackOp} (owned : Owned process shared views)
    (allowed : (views thread).allows event) (found : event.stackOp = some (.proto, op))
    : thread = .timer ∨ thread = .app process.main := by
  by_contra neither
  have app : process.role thread = .app := by
    cases thread with
    | timer => exact absurd (Or.inl rfl) neither
    | app n => exact if_neg fun main => neither (Or.inr (congrArg Tid.app main))
  exact (owned.sound thread).bystander allowed found (owned.bystander thread app)
    ((owned.role thread).trans app)

end Labrea
