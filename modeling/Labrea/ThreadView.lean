import Labrea.CallTree

/-! The locking discipline of one thread, as a monitor of its events: what the thread holds
and is in the middle of, and which events these permit. Every run of labrea's code, over any
call tree, is accepted.
-/

namespace Labrea

open Traced (Monitor)
open Traced.Monitor

/-- An application thread, the application thread that runs the exit handlers, or the timer
thread.
-/
inductive Role where
  | app
  | exiting
  | timer
  deriving DecidableEq, Repr

/-- What a thread is in the middle of: Lua code called by `lua_pcall`, a script function
called by that code, or an original.
-/
inductive Frame where
  | lua (state : LState)
  | ccall (state : LState)
  | original (caller : Caller)
  deriving DecidableEq, Repr

/-- An original that runs for a top-level call itself, not inside a hook window. -/
def Frame.released : Frame → Bool
  | .original .direct | .original .script => true
  | _ => false

/-- A frame of a `lua_State`. -/
def Frame.inState : Frame → Bool
  | .original _ => false
  | _ => true

/-- What the events of a thread so far say about it. `held` is the place that locked the
mutex, `pushed` counts the values pushed on `luaStateProto` since then and since a call last
began or ended, `due` bounds those the thread still pushes outside any call, and `tainted` says that the thread made a hooked call on an entry with hooks
while it owned the mutex with its invocation flag unset.
-/
structure View where
  role : Role
  held : Option Site
  armed : Bool
  registered : Bool
  frames : List Frame
  pushed : Nat
  due : Nat
  tainted : Bool
  deriving DecidableEq, Repr

/-- The hooked call on `func` that the thread is about to make will wait for a mutex that
the thread owns.
-/
def View.taints (view : View) (func : FType) : Bool :=
  view.held.isSome && !view.armed && func.hooked

/-- What a thread that locked the mutex there pushes on `luaStateProto` outside any call. -/
def Site.pushes : Site → Nat
  | .timerLoop => 2
  | .getLuaState | .destroyScriptingState => 1
  | _ => 0

def View.next (view : View) : Event → View
  | .enter func => { view with tainted := view.tainted || view.taints func }
  | .arm => { view with armed := true }
  | .disarm => { view with armed := false }
  | .lock site => { view with held := some site, pushed := 0, due := site.pushes }
  | .unlock => { view with held := none }
  | .newthread => { view with registered := true, pushed := 0, due := view.due - 1 }
  | .push .proto => { view with pushed := view.pushed + 1, due := view.due - 1 }
  | .pcall state _ => { view with frames := .lua state :: view.frames, pushed := 0, due := 0 }
  | .ccall state => { view with frames := .ccall state :: view.frames, pushed := 0, due := 0 }
  | .original caller _ _ => { view with frames := .original caller :: view.frames }
  | .pcallReturn _ | .pcallError _ | .creturn _ =>
      { view with frames := view.frames.tail, pushed := 0, due := 0 }
  | .originalReturn _ => { view with frames := view.frames.tail }
  | _ => view

/-- The innermost frame. -/
def View.inside (view : View) (frame : Frame) : Prop :=
  view.frames.head? = some frame

/-- The innermost frame of a `lua_State`, under any originals, is not one of Lua code. -/
def View.OutsideLua (view : View) : Prop :=
  ∀ state, view.frames.find? Frame.inState ≠ some (.lua state)

/-- No original of the thread runs for a top-level call of an application thread. -/
def View.Unreleased (view : View) : Prop :=
  view.role ≠ .timer → ∀ frame ∈ view.frames, frame.released = false

/-- The two places that call Lua code on `luaStateProto`. -/
def Site.callsProto : Site → Bool
  | .timerLoop | .destroyScriptingState => true
  | _ => false

/-- Only the timer thread runs `timerLoop`, and only the exiting one the exit handlers. -/
def Site.openTo (role : Role) : Site → Prop
  | .timerLoop => role = .timer
  | .destroyScriptingState => role = .exiting
  | _ => True

def View.allows (view : View) : Event → Prop
  | .enter _ => view.role ≠ .timer → view.held.isSome → view.armed
  | .lock site =>
      (view.held = none ∨ view.tainted) ∧ view.Unreleased ∧ site.openTo view.role
  | .unlock => view.held.isSome ∧ view.OutsideLua
  | .newthread => view.held = some .getLuaState ∧ view.registered = false ∧ 0 < view.due
  | .settop .proto => view.held.isSome ∧ view.inside (.ccall .proto)
  | .push .proto =>
      view.held.isSome
      ∧ (view.inside (.ccall .proto)
        ∨ (view.frames = [] ∧ 0 < view.due ∧ ∃ site, view.held = some site ∧ site.callsProto))
  | .pcall .proto args =>
      (∃ site, view.held = some site ∧ site.callsProto)
      ∧ view.frames = []
      ∧ view.pushed = args + 1
  | .settop .own | .push .own | .pcall .own _ => view.held.isSome ∧ view.registered
  | .hook _ _ _ => view.held.isSome
  | .lua state | .pcallReturn state | .pcallError state | .ccall state =>
      view.held.isSome ∧ view.inside (.lua state)
  | .creturn state => view.held.isSome ∧ view.inside (.ccall state)
  | .original caller _ _ =>
      view.role ≠ .timer → (Frame.original caller).released → view.held = none
  | .originalReturn caller => view.inside (.original caller)
  | .arm | .disarm | .usleep _ | .sleep | .report => True

/-- A thread waits for its own mutex only after it was tainted. -/
def View.mayHalt (view : View) : Halt → Prop
  | .deadlock => view.tainted
  | .abort | .undefined => True

/-- The locking discipline. -/
def discipline : Monitor Event Halt View where
  next := View.next
  allows := View.allows
  mayHalt := View.mayHalt

@[simp] theorem discipline_next (view : View) (event : Event)
    : discipline.next view event = view.next event := rfl

@[simp] theorem discipline_allows (view : View) (event : Event)
    : discipline.allows view event = view.allows event := rfl

/-- An original on top of the frames leaves the frames of `lua_State`s as they are. -/
theorem View.outsideLua_original {view : View} {caller : Caller} {addr : Addr}
    {args : List Word}
    : (view.next (.original caller addr args)).OutsideLua ↔ view.OutsideLua :=
  Iff.rfl

/-- A script function has labrea's code on top of the Lua code that called it. -/
theorem View.outsideLua_ccall {view : View} {state : LState}
    : (view.next (.ccall state)).OutsideLua := by
  intro other
  simp [View.next, Frame.inState]

@[simp] theorem View.next_role {view : View} {event : Event}
    : (view.next event).role = view.role := by
  cases event
  case push state => cases state <;> rfl
  all_goals rfl

/-- Only a hooked call taints a view. -/
theorem View.next_tainted {view : View} {event : Event} (clean : view.tainted = false)
    (harmless : ∀ func, event = .enter func → view.taints func = false)
    : (view.next event).tainted = false := by
  cases event
  case enter func => simp [View.next, clean, harmless func rfl]
  case push state => cases state <;> exact clean
  all_goals exact clean

/-- A thread other than the timer makes hooked calls under the mutex with its flag set. -/
theorem View.taints_of_allows {view : View} {func : FType} (notTimer : view.role ≠ .timer)
    (allowed : view.allows (.enter func))
    : view.taints func = false := by
  by_contra taints
  obtain ⟨held, unarmed, _⟩
      : view.held.isSome ∧ view.armed = false ∧ func.hooked := by
    simpa [View.taints] using taints
  exact absurd ((allowed notTimer held).symm.trans unarmed) (by simp)

/-- A thread other than the timer stays untainted, by induction on its trace. -/
theorem untainted_after {view : View} {trace : List Event} (notTimer : view.role ≠ .timer)
    (clean : view.tainted = false) (accepted : discipline.Accepts view trace)
    : (discipline.after view trace).tainted = false := by
  induction trace generalizing view with
  | nil => exact clean
  | cons event rest ih =>
      rw [accepts_cons, discipline_allows, discipline_next] at accepted
      obtain ⟨allowed, later⟩ := accepted
      refine ih (by simpa using notTimer) (View.next_tainted clean ?_) later
      rintro func rfl
      exact View.taints_of_allows notTimer allowed

/-- The view agrees with the thread-local state it is a view of. -/
structure Sync (thread : Thread) (view : View) : Prop where
  mutex : thread.ownsMutex = view.held.isSome
  flag : thread.invocation.getD false = view.armed
  key : thread.luaThread = view.registered

/-- Two views of one thread before and after code that returned: its mutex, flag and frames
are as they were.
-/
structure Kept (before after : View) : Prop where
  role : after.role = before.role
  held : after.held.isSome = before.held.isSome
  armed : after.armed = before.armed
  frames : after.frames = before.frames
  registered : before.registered → after.registered
  tainted : before.tainted → after.tainted

theorem Kept.refl (view : View) : Kept view view :=
  ⟨rfl, rfl, rfl, rfl, id, id⟩

theorem Kept.trans {first second third : View} (one : Kept first second)
    (two : Kept second third)
    : Kept first third :=
  ⟨two.role.trans one.role, two.held.trans one.held, two.armed.trans one.armed,
    two.frames.trans one.frames, two.registered ∘ one.registered,
    two.tainted ∘ one.tainted⟩

theorem Kept.unreleased {before after : View} (kept : Kept before after)
    (unreleased : before.Unreleased)
    : after.Unreleased := by
  intro app frame member
  rw [kept.frames] at member
  exact unreleased (kept.role ▸ app) frame member

theorem Kept.held_eq_none {before after : View} (kept : Kept before after)
    : after.held = none ↔ before.held = none := by
  rw [← Option.not_isSome_iff_eq_none, ← Option.not_isSome_iff_eq_none, kept.held]

theorem Kept.outside {before after : View} (kept : Kept before after)
    (outside : before.OutsideLua)
    : after.OutsideLua := by
  rw [View.OutsideLua, kept.frames]
  exact outside

theorem Kept.free {before after : View} (kept : Kept before after)
    (free : before.held = none ∨ before.tainted)
    : after.held = none ∨ after.tainted :=
  free.imp kept.held_eq_none.mpr kept.tainted

-----------------------------------------------------------------------------------------
-- Where labrea's code is entered
-----------------------------------------------------------------------------------------

/-- Where the application, an original or Lua code can make a hooked call. On an application
thread the mutex is owned only while the flag is set, and no top-level original is running
while the flag is not set.
-/
structure View.Ready (view : View) : Prop where
  armed : view.role ≠ .timer → view.held.isSome → view.armed
  unreleased : view.armed = false → view.Unreleased
  outside : view.held = none → view.OutsideLua

/-- Where Lua code runs on a state. -/
structure View.InLua (state : LState) (view : View) : Prop where
  held : view.held.isSome
  armed : view.role ≠ .timer → view.armed
  usable : state = .own → view.registered
  unreleased : view.Unreleased
  inside : view.inside (.lua state)

/-- Where labrea's own code uses the Lua API on a state. -/
structure View.Owning (state : LState) (view : View) : Prop where
  held : view.held.isSome
  armed : view.role ≠ .timer → view.armed
  usable : state = .own → view.registered
  unreleased : view.Unreleased
  outside : view.OutsideLua

/-- Where a hook call is entered. -/
structure View.Entering (view : View) : Prop where
  free : view.held = none ∨ view.tainted
  armed : view.role ≠ .timer → view.armed
  unreleased : view.Unreleased
  outside : view.held = none → view.OutsideLua

theorem View.InLua.ready {view : View} {state : LState} (inLua : view.InLua state)
    : view.Ready where
  armed app _ := inLua.armed app
  unreleased _ := inLua.unreleased
  outside unheld := absurd inLua.held (by simp [unheld])

theorem View.Owning.ready {view : View} {state : LState} (owning : view.Owning state)
    : view.Ready where
  armed app _ := owning.armed app
  unreleased _ := owning.unreleased
  outside _ := owning.outside

theorem Kept.inLua {before after : View} {state : LState} (kept : Kept before after)
    (inLua : before.InLua state)
    : after.InLua state where
  held := kept.held ▸ inLua.held
  armed app := kept.armed ▸ inLua.armed (kept.role ▸ app)
  usable own := kept.registered (inLua.usable own)
  unreleased := kept.unreleased inLua.unreleased
  inside := by
    rw [View.inside, kept.frames]
    exact inLua.inside

theorem Kept.owning {before after : View} {state : LState} (kept : Kept before after)
    (owning : before.Owning state)
    : after.Owning state where
  held := kept.held ▸ owning.held
  armed app := kept.armed ▸ owning.armed (kept.role ▸ app)
  usable own := kept.registered (owning.usable own)
  unreleased := kept.unreleased owning.unreleased
  outside := kept.outside owning.outside

theorem Kept.entering {before after : View} (kept : Kept before after)
    (entering : before.Entering)
    : after.Entering where
  free := kept.free entering.free
  armed app := kept.armed ▸ entering.armed (kept.role ▸ app)
  unreleased := kept.unreleased entering.unreleased
  outside unheld := kept.outside (entering.outside (kept.held_eq_none.mp unheld))

theorem Kept.ready {before after : View} (kept : Kept before after) (ready : before.Ready)
    : after.Ready where
  armed app held :=
    kept.armed ▸ ready.armed (kept.role ▸ app) (kept.held ▸ held)
  unreleased unarmed := kept.unreleased (ready.unreleased (kept.armed ▸ unarmed))
  outside unheld := kept.outside (ready.outside (kept.held_eq_none.mp unheld))

/-- The program is accepted from the view, and where it returns it keeps the view. -/
def Stays {α : Type} (program : Run α) (thread : Thread) (view : View) : Prop :=
  discipline.WP program (fun _ next last => Sync next last ∧ Kept view last) thread view

/-- The program keeps every view of one kind. -/
def Keeps {α : Type} (entry : View → Prop) (program : Run α) : Prop :=
  ∀ thread view, Sync thread view → entry view → Stays program thread view

theorem stays_pure {α : Type} {value : α} {thread : Thread} {view : View}
    (sync : Sync thread view)
    : Stays (pure value) thread view :=
  wp_pure ⟨sync, Kept.refl view⟩

/-- Programs that keep their views in sequence keep the first view. -/
theorem stays_bind {α β : Type} {head : Run α} {rest : α → Run β} {thread : Thread}
    {view : View} (first : Stays head thread view)
    (second
      : ∀ value next last, Sync next last → Kept view last → Stays (rest value) next last)
    : Stays (head >>= rest) thread view := by
  refine wp_bind (first.mono ?_)
  intro value next last ⟨sync, kept⟩
  refine (second value next last sync kept).mono ?_
  intro _ _ _ ⟨restSync, restKept⟩
  exact ⟨restSync, kept.trans restKept⟩

/-- An event that changes nothing the view keeps. -/
theorem stays_emit {event : Event} {thread : Thread} {view : View} (allowed : view.allows event)
    (same : Sync thread (view.next event)) (kept : Kept view (view.next event))
    : Stays (Traced.Program.emit event) thread view :=
  wp_emit allowed ⟨same, kept⟩

end Labrea
