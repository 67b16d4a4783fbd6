import Labrea.Process

/-! The mutex across all interleavings: whoever executes Lua owns it, no original of a
top-level call runs under it, and which threads can come to wait for their own.
-/

namespace Labrea

open Interleaving (Config)

/-- A thread that does not own the mutex is not executing Lua code, and one that owns it is
not running the original of a top-level call and took it in a place open to its role.
-/
structure View.Sound (view : View) : Prop where
  outside : view.held = none → view.OutsideLua
  unreleased : view.held.isSome → view.Unreleased
  place : ∀ site, view.held = some site → site.openTo view.role

/-- Popping a frame uncovers no released original. -/
theorem View.Unreleased.tail {view : View} (unreleased : view.Unreleased)
    (notTimer : view.role ≠ .timer)
    : ∀ frame ∈ view.frames.tail, frame.released = false :=
  fun frame member => unreleased notTimer frame (List.mem_of_mem_tail member)

/-- Every allowed event keeps a view sound, by cases on the event. -/
theorem View.Sound.next {view : View} {event : Event} (sound : view.Sound)
    (allowed : view.allows event)
    : (view.next event).Sound := by
  cases event
  case lock site =>
    refine ⟨(fun unheld => nomatch unheld), fun _ => allowed.2.1, ?_⟩
    intro _ held
    cases held
    exact allowed.2.2
  case unlock => exact ⟨fun _ => allowed.2, (fun held => nomatch held), fun _ held => nomatch held⟩
  case push state =>
    cases state <;> exact ⟨sound.outside, sound.unreleased, sound.place⟩
  case pcall state args =>
    have held : view.held.isSome := by
      cases state with
      | own => exact allowed.1
      | proto =>
          obtain ⟨⟨site, held, _⟩, _⟩ := allowed
          simp [held]
    refine ⟨fun unheld => absurd held (by simp [show view.held = none from unheld]), ?_,
      sound.place⟩
    intro _ notTimer frame member
    rcases List.mem_cons.mp member with rfl | older
    · rfl
    · exact sound.unreleased held notTimer frame older
  case ccall state =>
    refine ⟨fun _ => outsideLua_ccall, ?_, sound.place⟩
    intro held notTimer frame member
    rcases List.mem_cons.mp member with rfl | older
    · rfl
    · exact sound.unreleased held notTimer frame older
  case pcallReturn state | pcallError state | creturn state =>
    have held : view.held.isSome := allowed.1
    exact ⟨fun unheld => absurd held (by simp [show view.held = none from unheld]),
      fun _ notTimer => (sound.unreleased held).tail notTimer, sound.place⟩
  case original caller addr args =>
    refine ⟨fun unheld => outsideLua_original.mpr (sound.outside unheld), ?_, sound.place⟩
    intro held notTimer frame member
    rcases List.mem_cons.mp member with rfl | older
    · by_contra released
      have unheld := allowed notTimer (by simpa using released)
      exact absurd held (by simp [View.next, unheld])
    · exact sound.unreleased held notTimer frame older
  case originalReturn caller =>
    obtain ⟨rest, frames⟩ := List.head?_eq_some_iff.mp allowed
    refine ⟨?_, fun held notTimer => (sound.unreleased held).tail notTimer, sound.place⟩
    intro unheld state
    have outside := sound.outside unheld state
    rw [frames] at outside
    simpa [View.next, frames, Frame.inState] using outside
  all_goals exact ⟨sound.outside, sound.unreleased, sound.place⟩

/-- Lua code and calls of the Lua API, on any state of the universe. -/
def Event.usesLua : Event → Bool
  | .newthread | .settop _ | .push _ | .pcall _ _ | .pcallReturn _ | .pcallError _
  | .hook _ _ _ | .lua _ | .ccall _ | .creturn _ => true
  | _ => false

/-- Using Lua needs the mutex. -/
theorem View.held_of_usesLua {view : View} {event : Event} (allowed : view.allows event)
    (uses : event.usesLua)
    : view.held.isSome := by
  cases event
  case newthread => simp [allowed.1]
  case settop state | push state => cases state <;> exact allowed.1
  case pcall state args =>
    cases state with
    | own => exact allowed.1
    | proto =>
        obtain ⟨⟨site, held, _⟩, _⟩ := allowed
        simp [held]
  case hook => exact allowed
  case pcallReturn | pcallError | lua | ccall | creturn => exact allowed.1
  all_goals exact nomatch uses

theorem View.Sound.held_of_inside {view : View} {state : LState} (sound : view.Sound)
    (inside : view.inside (.lua state))
    : view.held.isSome := by
  obtain ⟨rest, frames⟩ := List.head?_eq_some_iff.mp inside
  rw [Option.isSome_iff_ne_none]
  intro unheld
  exact sound.outside unheld state (by simp [frames, Frame.inState])

/-- Events other than the two of the mutex leave it. -/
theorem View.next_held {view : View} {event : Event} (notLock : ∀ site, event ≠ .lock site)
    (notUnlock : event ≠ .unlock)
    : (view.next event).held = view.held := by
  cases event
  case lock site => exact absurd rfl (notLock site)
  case unlock => exact absurd rfl notUnlock
  case push state => cases state <;> rfl
  all_goals rfl

/-- The events that work on a stack are not those of the mutex. -/
theorem Event.stackOp_ne {event : Event} {work : LState × StackOp}
    (found : event.stackOp = some work)
    : (∀ site, event ≠ .lock site) ∧ event ≠ .unlock := by
  constructor
  · rintro site rfl
    exact nomatch found
  · rintro rfl
    exact nomatch found

theorem Event.isLocal_ne {event : Event} (isLocal : event.isLocal)
    : (∀ site, event ≠ .lock site) ∧ event ≠ .unlock := by
  constructor
  · rintro site rfl
    exact nomatch isLocal
  · rintro rfl
    exact nomatch isLocal

-----------------------------------------------------------------------------------------
-- What every configuration satisfies
-----------------------------------------------------------------------------------------

theorem Process.role_app (process : Process) (n : Nat) : process.role (.app n) ≠ .timer := by
  rw [Process.role]
  split <;> simp

/-- The owner of the mutex is the thread whose view says so, and the views are sound. -/
structure Disciplined (process : Process) (shared : Shared) (views : Tid → View)
    : Prop where
  owner : ∀ thread, shared.mutex = some thread ↔ (views thread).held.isSome
  sound : ∀ thread, (views thread).Sound
  role : ∀ thread, (views thread).role = process.role thread

/-- Two threads do not own the mutex. -/
theorem Disciplined.owner_unique {process : Process} {shared : Shared} {views : Tid → View}
    (disciplined : Disciplined process shared views) {first second : Tid}
    (one : (views first).held.isSome) (two : (views second).held.isSome)
    : first = second :=
  Option.some.inj
    (((disciplined.owner first).mpr one).symm.trans ((disciplined.owner second).mpr two))

theorem Process.start_disciplined (process : Process)
    : Disciplined process process.start.shared process.start.views where
  owner thread := by simp [Process.start, Process.view]
  sound thread := by
    refine ⟨fun _ => (process.view_idle thread).outside, ?_, ?_⟩
    · intro held
      cases held
    · intro _ held
      cases held
  role thread := rfl

/-- An allowed event of any thread keeps the owner and the views in step. -/
theorem Disciplined.step {process : Process} {shared next : Shared} {views : Tid → View}
    {thread : Tid} {event : Event} (disciplined : Disciplined process shared views)
    (allowed : (views thread).allows event)
    (performed : perform shared thread event = some next)
    : Disciplined process next
        (Function.update views thread ((views thread).next event)) where
  sound other := by
    by_cases same : other = thread
    · subst same
      simpa only [Function.update_self] using (disciplined.sound other).next allowed
    · simpa only [Function.update_of_ne same] using disciplined.sound other
  role other := by
    by_cases same : other = thread
    · subst same
      simpa only [Function.update_self, View.next_role] using disciplined.role other
    · simpa only [Function.update_of_ne same] using disciplined.role other
  owner other := by
    have before := disciplined.owner
    have unmoved (ne : (∀ site, event ≠ .lock site) ∧ event ≠ .unlock)
        : (Function.update views thread ((views thread).next event) other).held
          = (views other).held := by
      by_cases same : other = thread
      · subst same
        rw [Function.update_self, View.next_held ne.1 ne.2]
      · rw [Function.update_of_ne same]
    rcases perform_cases performed with ⟨site, rfl, free, rfl⟩ | ⟨rfl, rfl⟩ | ⟨rfl, rfl⟩
      | ⟨_, _, _, _, found, _, _, rfl⟩ | ⟨isLocal, rfl⟩
    · by_cases same : other = thread
      · subst same
        simp [View.next]
      · have unheld := mt (before other).mpr (by simp [free])
        simp [Function.update_of_ne same, unheld, Ne.symm same]
    · by_cases same : other = thread
      · subst same
        simp [View.next]
      · have owner := (before thread).mpr allowed.1
        have unheld := mt (before other).mpr (by simp [owner, Ne.symm same])
        simp [Function.update_of_ne same, unheld]
    · rw [unmoved (by simp)]
      exact before other
    · rw [unmoved (Event.stackOp_ne found)]
      exact before other
    · rw [unmoved (Event.isLocal_ne isLocal)]
      exact before other

/-- Every configuration of a run is disciplined, whatever condition its steps meet. -/
theorem Process.Reaches.disciplined {process : Process}
    {guard : Config Tid Event Shared View → Tid → Bool}
    {config : Config Tid Event Shared View} (run : process.Reaches guard config)
    : (∀ thread, discipline.Accepts (config.views thread) (config.rest thread))
      ∧ Disciplined process config.shared config.views :=
  run.invariant process.accepted process.start_disciplined
    fun _ _ _ _ _ disciplined _ _ allowed performed => disciplined.step allowed performed

/-- The thread executes Lua code, or is about to perform its next piece of it or its next
call of the Lua API.
-/
def ExecutesLua (config : Config Tid Event Shared View) (thread : Tid) : Prop :=
  (∃ state, (config.views thread).inside (.lua state))
  ∨ ∃ event later, config.rest thread = event :: later ∧ event.usesLua

/-- The thread is running an original for a top-level call: from `wrapper` itself, or through
`labrea.invoke` in a hook.
-/
def RunsOriginal (config : Config Tid Event Shared View) (thread : Tid) : Prop :=
  ∃ frame ∈ (config.views thread).frames, frame.released

/-- In every interleaving, the thread that executes Lua owns the mutex, so that there is at
most one, and an application thread does not own it while its top-level call runs an
original. Witness: the invariant of all configurations, and the discipline of the next event.
-/
theorem Process.luaExclusion (process : Process) {config : Config Tid Event Shared View}
    (run : process.Reaches (fun _ _ => true) config)
    : (∀ thread, ExecutesLua config thread → config.shared.mutex = some thread)
      ∧ (∀ first second, ExecutesLua config first → ExecutesLua config second
        → first = second)
      ∧ (∀ n, RunsOriginal config (.app n) → config.shared.mutex ≠ some (.app n)) := by
  obtain ⟨accepted, disciplined⟩ := run.disciplined
  have owns : ∀ thread, ExecutesLua config thread → config.shared.mutex = some thread := by
    intro thread holds
    rcases holds with ⟨state, inside⟩ | ⟨event, later, next, uses⟩
    · exact (disciplined.owner thread).mpr ((disciplined.sound thread).held_of_inside inside)
    · have allowed := accepted thread
      rw [next, Traced.Monitor.accepts_cons] at allowed
      exact (disciplined.owner thread).mpr (View.held_of_usesLua allowed.1 uses)
  refine ⟨owns, ?_, ?_⟩
  · intro first second one two
    exact Option.some.inj ((owns first one).symm.trans (owns second two))
  · rintro n ⟨frame, member, released⟩ owner
    have held := (disciplined.owner (.app n)).mp owner
    have notTimer : (config.views (.app n)).role ≠ .timer := by
      rw [disciplined.role]
      exact process.role_app n
    have unreleased := (disciplined.sound (.app n)).unreleased held notTimer frame member
    exact absurd (released.symm.trans unreleased) (by simp)

/-- A thread in a before hook, with the mutex. -/
theorem sleepingCallback_luaExclusion
    : ∃ config, sleepingCallback.Reaches (fun _ _ => true) config
        ∧ ExecutesLua config (.app 1)
        ∧ (∀ thread, ExecutesLua config thread → config.shared.mutex = some thread)
        ∧ (∀ first second, ExecutesLua config first → ExecutesLua config second
          → first = second)
        ∧ (∀ n, RunsOriginal config (.app n) → config.shared.mutex ≠ some (.app n)) := by
  obtain ⟨config, run, inside⟩ := Option.map_eq_some_iff.mp
    (show (sleepingCallback.start.exec perform discipline (fun _ _ => true)
        (.timer :: List.replicate 12 (.app 1))).map
        (fun config => (config.views (.app 1)).frames.head?)
      = some (some (.lua .own)) from rfl)
  have reached := Config.exec_reaches run
  exact ⟨config, reached, Or.inl ⟨.own, inside⟩, sleepingCallback.luaExclusion reached⟩

/-- The next step is not a hooked call, of a function with a hook enabled, that the timer
thread makes while it owns the mutex with its invocation flag unset.
-/
def timerHookFree (config : Config Tid Event Shared View) (thread : Tid) : Bool :=
  match config.rest thread with
  | .enter func :: _ =>
      !(thread == .timer && config.shared.mutex == some .timer
        && !(config.views .timer).armed && func.hooked)
  | _ => true

/-- A configuration in which no thread has made a hooked call that will wait for a mutex the
thread owns.
-/
structure Untainted (process : Process) (shared : Shared) (views : Tid → View)
    : Prop extends Disciplined process shared views where
  untainted : ∀ thread, (views thread).tainted = false

/-- Only a hooked call of the timer thread taints its thread. -/
theorem Untainted.next {process : Process} {config : Config Tid Event Shared View}
    {thread : Tid} {event : Event} {later : List Event}
    (untainted : Untainted process config.shared config.views)
    (free : timerHookFree config thread) (found : config.rest thread = event :: later)
    (allowed : (config.views thread).allows event)
    : ((config.views thread).next event).tainted = false := by
  refine View.next_tainted (untainted.untainted thread) ?_
  rintro func rfl
  cases thread with
  | app n =>
      refine View.taints_of_allows ?_ allowed
      rw [untainted.role]
      exact process.role_app n
  | timer =>
      by_contra taints
      obtain ⟨held, unarmed, hooked⟩
          : (config.views .timer).held.isSome ∧ (config.views .timer).armed = false
            ∧ func.hooked := by
        simpa [View.taints] using taints
      have owner := (untainted.owner .timer).mpr held
      simp [timerHookFree, found, owner, unarmed, hooked] at free

/-- In a run in which the timer thread makes no such hooked call, no thread comes to lock a
mutex that it owns. Witness: a view that is not tainted may lock only while it holds nothing.
-/
theorem Process.noSelfLock (process : Process) {config : Config Tid Event Shared View}
    (run : process.Reaches timerHookFree config) {thread : Tid} {site : Site}
    {later : List Event} (entering : config.rest thread = .lock site :: later)
    : config.shared.mutex ≠ some thread := by
  have invariant
      : (∀ thread, discipline.Accepts (config.views thread) (config.rest thread))
        ∧ Untainted process config.shared config.views := by
    refine run.invariant process.accepted ⟨process.start_disciplined, fun _ => rfl⟩ ?_
    intro config thread event later shared untainted free found allowed performed
    refine ⟨untainted.toDisciplined.step allowed performed, ?_⟩
    intro other
    by_cases same : other = thread
    · subst same
      rw [Function.update_self]
      exact untainted.next free found allowed
    · rw [Function.update_of_ne same]
      exact untainted.untainted other
  obtain ⟨accepted, untainted⟩ := invariant
  have allowed := accepted thread
  rw [entering, Traced.Monitor.accepts_cons] at allowed
  have unheld := allowed.1.1.resolve_right (by simp [untainted.untainted thread])
  rw [Ne, untainted.owner thread, unheld]
  simp

/-- A first hooked call of an application thread is about to lock the mutex. -/
theorem sleepingCallback_noSelfLock
    : ∃ config, sleepingCallback.Reaches timerHookFree config
        ∧ (∃ later, config.rest (.app 1) = .lock .getLuaState :: later)
        ∧ config.shared.mutex ≠ some (.app 1) := by
  obtain ⟨config, run, next⟩ := Option.map_eq_some_iff.mp
    (show (sleepingCallback.start.exec perform discipline timerHookFree
        [.timer, .timer, .app 1, .app 1]).map (fun config => (config.rest (.app 1)).head?)
      = some (some (.lock .getLuaState)) from rfl)
  have reached := Config.exec_reaches run
  obtain ⟨later, next⟩ := List.head?_eq_some_iff.mp next
  exact ⟨config, reached, ⟨later, next⟩, sleepingCallback.noSelfLock reached next⟩

/-- The places where a hooked call locks the mutex. -/
def Site.ofHookedCall : Site → Bool
  | .getLuaState | .luaStateHolder => true
  | _ => false

/-- A callback of the timer thread calls a function with a before hook, under the mutex that
`timerLoop` locked.
-/
def hookedCallback : Process :=
  { sleepingCallback with
    ticks := [.returns [.hooked (writeCall ⟨true, false, false⟩ (.value (.returns [] .nil)))]
      .nil] }

/-- The callback's hooked call waits for the mutex that its own thread owns. -/
theorem hookedCallback_locks_itself
    : ¬ ∀ (process : Process) (config : Config Tid Event Shared View),
        process.Reaches (fun _ _ => true) config
        → ∀ thread site later, config.rest thread = .lock site :: later → site.ofHookedCall
          → config.shared.mutex ≠ some thread := by
  intro always
  obtain ⟨config, run, facts⟩ := Option.map_eq_some_iff.mp
    (show (hookedCallback.start.exec perform discipline (fun _ _ => true)
        (List.replicate 8 .timer)).map
        (fun config => (config.rest .timer, config.shared.mutex))
      = some ([.lock .getLuaState], some .timer) from rfl)
  obtain ⟨next, owner⟩ := Prod.mk.inj facts
  exact always hookedCallback config (Config.exec_reaches run) .timer .getLuaState [] next rfl
    owner

end Labrea
