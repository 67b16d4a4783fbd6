import Labrea.Library.Serial
import Labrea.MutualExclusion

/-! What the mutex makes of an interleaving: its critical sections can be taken one after the
other, each as if nobody else ran meanwhile.
-/

namespace Labrea

open Interleaving (Config IsLocal OwnTakes serially)

theorem Event.isLocal_perform {event : Event} (isLocal : event.isLocal)
    : IsLocal perform event := by
  intro shared thread
  cases event <;> first | rfl | exact nomatch isLocal

/-- The events that are not local lock or unlock the mutex or use Lua. -/
theorem Event.isLocal_or (event : Event)
    : event.isLocal ∨ (∃ site, event = .lock site) ∨ event = .unlock ∨ event.usesLua := by
  cases event
  case lock site => exact Or.inr (Or.inl ⟨site, rfl⟩)
  case unlock => exact Or.inr (Or.inr (Or.inl rfl))
  all_goals first | exact Or.inl rfl | exact Or.inr (Or.inr (Or.inr rfl))

/-- A thread comes to own the mutex by locking it. -/
theorem perform_ownTakes : OwnTakes perform Shared.mutex := by
  intro shared thread event next user performed owned
  rcases perform_cases performed with ⟨_, _, _, rfl⟩ | ⟨_, rfl⟩ | ⟨_, rfl⟩
    | ⟨_, _, _, _, _, _, _, rfl⟩ | ⟨_, rfl⟩
  · exact Or.inr (Option.some.inj owned).symm
  · exact nomatch owned
  all_goals exact Or.inl owned

/-- Under the mutex of another thread, only local events can be performed. Witness: locking
blocks, and all else needs the mutex.
-/
theorem Disciplined.local_outside {process : Process}
    {config : Config Tid Event Shared View} {user other : Tid} {event : Event} {next : Shared}
    (disciplined : Disciplined process config.shared config.views)
    (owned : config.shared.mutex = some user) (apart : other ≠ user)
    (allowed : (config.views other).allows event)
    (performed : perform config.shared other event = some next)
    : event.isLocal := by
  have unheld : ¬ (config.views other).held.isSome := by
    intro held
    have mine := (disciplined.owner other).mpr held
    exact apart (Option.some.inj (mine.symm.trans owned))
  rcases event.isLocal_or with isLocal | ⟨site, rfl⟩ | rfl | uses
  · exact isLocal
  · simp [perform, owned] at performed
  · exact absurd allowed.1 unheld
  · exact absurd (View.held_of_usesLua allowed uses) unheld

/-- Every configuration that any interleaving reaches is reached by one in which, from each
lock of the mutex to its unlock, only the thread that owns it steps. Witness: what the other
threads do meanwhile can be done before the lock.
-/
theorem Process.reaches_serially (process : Process) {config : Config Tid Event Shared View}
    (run : process.Reaches (fun _ _ => true) config)
    : process.Reaches (serially Shared.mutex) config := by
  refine Interleaving.Reaches.serial perform_ownTakes rfl ?_ run
  intro config user other event later next reached owned apart found performed
  obtain ⟨accepted, disciplined⟩ := Reaches.disciplined reached
  have allowed := accepted other
  rw [found, Traced.Monitor.accepts_cons] at allowed
  exact Event.isLocal_perform (disciplined.local_outside owned apart allowed.1 performed)

/-- Thread 1 enters its hooked call while the callback of a tick runs. -/
theorem sleepingCallback_serial
    : ∃ config, sleepingCallback.Reaches (fun _ _ => true) config
        ∧ config.shared.mutex = some .timer
        ∧ (config.views (.app 1)).armed
        ∧ sleepingCallback.Reaches (serially Shared.mutex) config := by
  obtain ⟨config, run, facts⟩ := Option.map_eq_some_iff.mp
    (show (sleepingCallback.start.exec perform discipline (fun _ _ => true)
        [.timer, .timer, .app 1, .app 1]).map
        (fun config => (config.shared.mutex, (config.views (.app 1)).armed))
      = some (some .timer, true) from rfl)
  obtain ⟨owner, armed⟩ := Prod.mk.inj facts
  have reached := Config.exec_reaches run
  exact ⟨config, reached, owner, armed, sleepingCallback.reaches_serially reached⟩

end Labrea
