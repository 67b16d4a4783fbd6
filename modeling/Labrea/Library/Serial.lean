import Labrea.Library.Interleaving

/-! Critical sections. Where every event of a thread that does not own the mutex leaves the
shared state alone as long as another thread owns it, a run can be rearranged into one in
which nobody else steps while the mutex is owned.
-/

namespace Interleaving

open Traced (Monitor)

variable {τ ε η σ μ : Type} [DecidableEq τ]

/-- The mutex is free, or the thread that steps owns it. -/
def serially (owner : σ → Option τ) (config : Config τ ε σ μ) (thread : τ) : Bool :=
  owner config.shared == none || owner config.shared == some thread

theorem serially_iff {owner : σ → Option τ} {config : Config τ ε σ μ} {thread : τ}
    : serially owner config thread
      ↔ owner config.shared = none ∨ owner config.shared = some thread := by
  simp [serially]

/-- Performing a local event leaves every shared state as it is. -/
def IsLocal (perform : Perform τ ε σ) (event : ε) : Prop :=
  ∀ shared thread, perform shared thread event = some shared

/-- Only the thread that steps comes to own the mutex. -/
def OwnTakes (perform : Perform τ ε σ) (owner : σ → Option τ) : Prop :=
  ∀ {shared thread event next user}, perform shared thread event = some next
    → owner next = some user → owner shared = some user ∨ user = thread

/-- The configuration after a thread has performed a local event. -/
def Config.skip (monitor : Monitor ε η μ) (config : Config τ ε σ μ) (thread : τ) (event : ε)
    (later : List ε)
    : Config τ ε σ μ where
  shared := config.shared
  views := Function.update config.views thread (monitor.next (config.views thread) event)
  rest := Function.update config.rest thread later

variable {perform : Perform τ ε σ} {monitor : Monitor ε η μ} {owner : σ → Option τ}

theorem Config.step_of_local {config : Config τ ε σ μ} {thread : τ} {event : ε}
    {later : List ε} (found : config.rest thread = event :: later)
    (isLocal : IsLocal perform event)
    : config.step perform monitor thread
      = some (config.skip monitor thread event later) := by
  rw [Config.step, found]
  simp only [isLocal config.shared thread, Option.map_some]
  rfl

/-- A local event of another thread can come before a step as well as after it. -/
theorem Config.step_skip {config next : Config τ ε σ μ} {thread other : τ} {event : ε}
    {later : List ε} (apart : other ≠ thread)
    (stepped : config.step perform monitor thread = some next)
    : (config.skip monitor other event later).step perform monitor thread
      = some (next.skip monitor other event later) := by
  obtain ⟨first, rest, shared, found, performed, rfl⟩ := Config.step_cases stepped
  have found' : (config.skip monitor other event later).rest thread = first :: rest :=
    (Function.update_of_ne (Ne.symm apart) _ _).trans found
  rw [Config.step, found']
  simp only [Config.skip, performed, Option.map_some, Function.update_of_ne apart,
    Function.update_of_ne (Ne.symm apart), Function.update_comm apart]

/-- A thread outside a critical section performs its local event before the section, by
induction on the run. Witness: the steps since the mutex was taken are all its owner's.
-/
theorem Reaches.skip_outside {start config : Config τ ε σ μ} {user other : τ} {event : ε}
    {later : List ε} (takes : OwnTakes perform owner) (free : owner start.shared = none)
    (run : Reaches perform monitor (serially owner) start config)
    (owned : owner config.shared = some user) (apart : other ≠ user)
    (found : config.rest other = event :: later) (isLocal : IsLocal perform event)
    : Reaches perform monitor (serially owner) start
        (config.skip monitor other event later) := by
  induction run with
  | refl => exact absurd (free.symm.trans owned) (by simp)
  | @tail before last run stepped ih =>
      obtain ⟨thread, serial, stepped⟩ := stepped
      obtain ⟨first, rest, shared, _, performed, same⟩ := Config.step_cases stepped
      have ownedNext : owner shared = some user := by
        rw [same] at owned
        exact owned
      have mine : user = thread := by
        rcases serially_iff.mp serial with none | some
        · rcases takes performed ownedNext with before | mine
          · exact absurd (none.symm.trans before) (by simp)
          · exact mine
        · rcases takes performed ownedNext with before | mine
          · exact Option.some.inj (before.symm.trans some)
          · exact mine
      subst mine
      have foundBefore : before.rest other = event :: later := by
        rw [same] at found
        exact (Function.update_of_ne apart _ _).symm.trans found
      have stepped' : (before.skip monitor other event later).step perform monitor user = _ :=
        Config.step_skip apart stepped
      have serial' : serially owner (before.skip monitor other event later) user := serial
      rcases serially_iff.mp serial with none | some
      · refine .tail (.tail run ⟨other, serially_iff.mpr (Or.inl none), ?_⟩)
          ⟨user, serial', stepped'⟩
        exact Config.step_of_local foundBefore isLocal
      · exact .tail (ih some foundBefore) ⟨user, serial', stepped'⟩

/-- Every configuration that a run reaches is reached by one in which no thread steps while
another owns the mutex, if the steps of the others are local then: by induction on the run.
-/
theorem Reaches.serial {start config : Config τ ε σ μ} (takes : OwnTakes perform owner)
    (free : owner start.shared = none)
    (outsiders
      : ∀ config user other event later next,
          Reaches perform monitor (fun _ _ => true) start config
          → owner config.shared = some user → other ≠ user
          → config.rest other = event :: later
          → perform config.shared other event = some next
          → IsLocal perform event)
    (run : Reaches perform monitor (fun _ _ => true) start config)
    : Reaches perform monitor (serially owner) start config := by
  induction run with
  | refl => exact .refl
  | @tail before last run stepped ih =>
      obtain ⟨thread, _, stepped⟩ := stepped
      by_cases serial : serially owner before thread
      · exact .tail ih ⟨thread, serial, stepped⟩
      · rw [serially_iff, not_or] at serial
        obtain ⟨user, owned⟩ := Option.ne_none_iff_exists'.mp serial.1
        have apart : thread ≠ user := by
          intro same
          subst same
          exact serial.2 owned
        obtain ⟨event, later, shared, found, performed, _⟩ := Config.step_cases stepped
        have isLocal := outsiders before user thread event later shared run owned apart found
          performed
        rw [Config.step_of_local found isLocal] at stepped
        rw [← Option.some.inj stepped]
        exact ih.skip_outside takes free owned apart found isLocal

end Interleaving
