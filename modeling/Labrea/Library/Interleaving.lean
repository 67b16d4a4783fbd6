import Mathlib.Logic.Function.Basic
import Mathlib.Logic.Relation
import Labrea.Library.Traced

/-! Interleavings of threads whose events are recorded in traces. A step performs the next
event of one thread on the shared state, which may block it. When a monitor accepts every
trace, an invariant needs to be preserved by allowed events only.
-/

namespace Interleaving

open Traced (Monitor)

variable {τ ε η σ μ : Type} [DecidableEq τ]

/-- The shared state, what the monitor has seen of each thread, and each thread's further
events.
-/
structure Config (τ ε σ μ : Type) where
  shared : σ
  views : τ → μ
  rest : τ → List ε

/-- What performing an event does to the shared state; `none` blocks the thread. -/
abbrev Perform (τ ε σ : Type) := σ → τ → ε → Option σ

variable (perform : Perform τ ε σ) (monitor : Monitor ε η μ)

/-- One thread performs its next event. -/
def Config.step (config : Config τ ε σ μ) (thread : τ) : Option (Config τ ε σ μ) :=
  match config.rest thread with
  | [] => none
  | event :: later =>
      (perform config.shared thread event).map fun shared => {
        shared := shared
        views := Function.update config.views thread
          (monitor.next (config.views thread) event)
        rest := Function.update config.rest thread later }

/-- Performs the steps of a schedule, as long as each meets a condition on the
configuration and the thread that steps.
-/
def Config.exec (guard : Config τ ε σ μ → τ → Bool) (config : Config τ ε σ μ)
    : List τ → Option (Config τ ε σ μ)
  | [] => some config
  | thread :: later =>
      if guard config thread then
        (config.step perform monitor thread).bind fun next => next.exec guard later
      else
        none

/-- A run whose steps all meet the condition. -/
def Reaches (guard : Config τ ε σ μ → τ → Bool)
    : Config τ ε σ μ → Config τ ε σ μ → Prop :=
  Relation.ReflTransGen fun config next =>
    ∃ thread, guard config thread ∧ config.step perform monitor thread = some next

variable {perform monitor}

/-- Everything a step can be. -/
theorem Config.step_cases {config next : Config τ ε σ μ} {thread : τ}
    (stepped : config.step perform monitor thread = some next)
    : ∃ event later shared,
        config.rest thread = event :: later
        ∧ perform config.shared thread event = some shared
        ∧ next = {
          shared := shared
          views := Function.update config.views thread
            (monitor.next (config.views thread) event)
          rest := Function.update config.rest thread later } := by
  unfold Config.step at stepped
  split at stepped
  · exact absurd stepped (by simp)
  case _ event later found =>
    obtain ⟨shared, performed, rfl⟩ := Option.map_eq_some_iff.mp stepped
    exact ⟨event, later, shared, found, performed, rfl⟩

/-- A schedule that can be performed is a run, by induction on the schedule. -/
theorem Config.exec_reaches {guard : Config τ ε σ μ → τ → Bool}
    {config last : Config τ ε σ μ} {schedule : List τ}
    (run : config.exec perform monitor guard schedule = some last)
    : Reaches perform monitor guard config last := by
  induction schedule generalizing config with
  | nil =>
      cases run
      exact .refl
  | cons thread later ih =>
      rw [Config.exec] at run
      split at run
      case isTrue met =>
        obtain ⟨next, stepped, rest⟩ := Option.bind_eq_some_iff.mp run
        exact .head ⟨thread, met, stepped⟩ (ih rest)
      case isFalse => exact nomatch run

/-- An invariant of the shared state and the views holds throughout a run of accepted
traces, if every allowed event that meets the condition preserves it. The traces that
remain stay accepted.
-/
theorem Reaches.invariant {guard : Config τ ε σ μ → τ → Bool}
    {inv : σ → (τ → μ) → Prop} {config last : Config τ ε σ μ}
    (run : Reaches perform monitor guard config last)
    (accepted : ∀ thread, monitor.Accepts (config.views thread) (config.rest thread))
    (start : inv config.shared config.views)
    (step
      : ∀ (config : Config τ ε σ μ) thread event later shared,
          inv config.shared config.views
          → guard config thread
          → config.rest thread = event :: later
          → monitor.allows (config.views thread) event
          → perform config.shared thread event = some shared
          → inv shared (Function.update config.views thread
              (monitor.next (config.views thread) event)))
    : (∀ thread, monitor.Accepts (last.views thread) (last.rest thread))
      ∧ inv last.shared last.views := by
  induction run with
  | refl => exact ⟨accepted, start⟩
  | tail _ stepped ih =>
      obtain ⟨accepted, holds⟩ := ih
      obtain ⟨thread, met, stepped⟩ := stepped
      obtain ⟨event, later, shared, found, performed, rfl⟩ := Config.step_cases stepped
      have next := accepted thread
      rw [found, Monitor.accepts_cons] at next
      refine ⟨?_, step _ thread event later shared holds met found next.1 performed⟩
      intro other
      by_cases same : other = thread
      · subst same
        simpa only [Function.update_self] using next.2
      · simpa only [Function.update_of_ne same] using accepted other

/-- What the monitor has seen of a thread at the end of its trace does not depend on how far
the run is.
-/
theorem Reaches.after_eq {guard : Config τ ε σ μ → τ → Bool} {config last : Config τ ε σ μ}
    (run : Reaches perform monitor guard config last) (thread : τ)
    : monitor.after (last.views thread) (last.rest thread)
      = monitor.after (config.views thread) (config.rest thread) := by
  induction run with
  | refl => rfl
  | tail _ stepped ih =>
      obtain ⟨other, _, stepped⟩ := stepped
      obtain ⟨event, later, shared, found, _, rfl⟩ := Config.step_cases stepped
      rw [← ih]
      by_cases same : thread = other
      · subst same
        simp only [Function.update_self, found, Monitor.after_cons]
      · simp only [Function.update_of_ne same]

end Interleaving
