import Mathlib.Tactic.Common

/-! State machines whose actions carry every choice. A run is a list of actions; an invariant
holds in the last state of a run, and a property that each step keeps exactly under a
condition holds there exactly where all steps met the condition.
-/

namespace Machine

variable {σ α : Type} (step : σ → α → Option σ)

/-- Performs actions in turn, as long as each of them is possible. -/
def exec (state : σ) : List α → Option σ
  | [] => some state
  | action :: rest => (step state action).bind fun next => exec next rest

/-- Every action of the run meets a condition on the state it is performed in. -/
def Meets (fine : σ → α → Prop) : σ → List α → Prop
  | _, [] => True
  | state, action :: rest =>
      fine state action ∧ ∀ next, step state action = some next → Meets fine next rest

instance Meets.decidable {fine : σ → α → Prop} [∀ state action, Decidable (fine state action)]
    : ∀ state actions, Decidable (Meets step fine state actions)
  | _, [] => isTrue trivial
  | state, action :: rest =>
      have (next : σ) : Decidable (Meets step fine next rest) := Meets.decidable next rest
      inferInstanceAs
        (Decidable (fine state action ∧ ∀ next ∈ step state action, Meets step fine next rest))

variable {step}

theorem exec_cons {state last : σ} {action : α} {rest : List α}
    : exec step state (action :: rest) = some last
      ↔ ∃ next, step state action = some next ∧ exec step next rest = some last :=
  Option.bind_eq_some_iff

theorem exec_append {state last : σ} {first second : List α}
    : exec step state (first ++ second) = some last
      ↔ ∃ between, exec step state first = some between
          ∧ exec step between second = some last := by
  induction first generalizing state with
  | nil => simp [exec]
  | cons action rest ih =>
      rw [List.cons_append, exec_cons]
      simp only [ih, exec_cons]
      grind

/-- Another machine simulates this one if it has, for each of its steps, steps to a state that
is related again. The relation may speak of the rest of the run: what the other machine has to
choose may depend on what comes.
-/
theorem exec_simulated {τ β : Type} {other : τ → β → Option τ} {fine : β → Prop}
    {rel : σ → τ → List α → Prop}
    (simulates : ∀ state action rest next related,
      rel state related (action :: rest) → step state action = some next
      → ∃ actions later,
          (∀ action ∈ actions, fine action)
          ∧ exec other related actions = some later
          ∧ rel next later rest)
    {state last : σ} {actions : List α} {related : τ} (start : rel state related actions)
    (run : exec step state actions = some last)
    : ∃ others later,
        (∀ action ∈ others, fine action)
        ∧ exec other related others = some later
        ∧ rel last later [] := by
  induction actions generalizing state related with
  | nil =>
      cases run
      exact ⟨[], related, by simp, rfl, start⟩
  | cons action rest ih =>
      obtain ⟨next, stepped, run⟩ := exec_cons.mp run
      obtain ⟨first, between, fineFirst, begins, relBetween⟩ :=
        simulates state action rest next related start stepped
      obtain ⟨second, later, fineSecond, ends, relLater⟩ := ih relBetween run
      refine ⟨first ++ second, later, fun action member => ?_,
        exec_append.mpr ⟨between, begins, ends⟩, relLater⟩
      exact (List.mem_append.mp member).elim (fineFirst action) (fineSecond action)

/-- An invariant of every step holds throughout. -/
theorem exec_keeps {inv : σ → Prop}
    (keeps : ∀ state action next, inv state → step state action = some next → inv next)
    {state last : σ} {actions : List α} (start : inv state)
    (run : exec step state actions = some last)
    : inv last := by
  induction actions generalizing state with
  | nil =>
      cases run
      exact start
  | cons action rest ih =>
      obtain ⟨next, stepped, run⟩ := exec_cons.mp run
      exact ih (keeps state action next start stepped) run

/-- What each step keeps, of a state, the rest of its run and the number of steps so far, holds
at the end of a run of the number of its actions.
-/
theorem exec_counts {inv : σ → List α → Nat → Prop}
    (keeps : ∀ state action rest next count,
      inv state (action :: rest) count → step state action = some next
      → inv next rest (count + 1))
    {state last : σ} {actions : List α} {count : Nat} (start : inv state actions count)
    (run : exec step state actions = some last)
    : inv last [] (count + actions.length) := by
  induction actions generalizing state count with
  | nil =>
      cases run
      exact start
  | cons action rest ih =>
      obtain ⟨next, stepped, run⟩ := exec_cons.mp run
      have later : inv last [] (count + 1 + rest.length) :=
        ih (keeps state action rest next count start stepped) run
      rwa [List.length_cons, Nat.add_comm rest.length, ← Nat.add_assoc]

/-- A step keeps an invariant under a condition, so runs that meet it do, by induction on the
actions.
-/
theorem exec_invariant {fine : σ → α → Prop} {inv : σ → Prop}
    (keeps : ∀ state action next,
      inv state → fine state action → step state action = some next → inv next)
    {state last : σ} {actions : List α} (start : inv state)
    (run : exec step state actions = some last) (meets : Meets step fine state actions)
    : inv last := by
  induction actions generalizing state with
  | nil =>
      cases run
      exact start
  | cons action rest ih =>
      obtain ⟨next, stepped, run⟩ := exec_cons.mp run
      exact ih (keeps state action next start meets.1 stepped) run (meets.2 next stepped)

/-- A property that a step keeps exactly under a condition holds at the end of a run exactly
where all its steps met the condition, by induction on the actions. Once lost it stays lost.
-/
theorem exec_iff_meets {fine : σ → α → Prop} {inv good : σ → Prop}
    (keeps : ∀ state action next, inv state → step state action = some next → inv next)
    (exact : ∀ state action next, inv state → step state action = some next
      → (good next ↔ good state ∧ fine state action))
    {state last : σ} {actions : List α} (start : inv state)
    (run : exec step state actions = some last)
    : good last ↔ good state ∧ Meets step fine state actions := by
  induction actions generalizing state with
  | nil =>
      cases run
      exact ⟨fun holds => ⟨holds, trivial⟩, And.left⟩
  | cons action rest ih =>
      obtain ⟨next, stepped, run⟩ := exec_cons.mp run
      rw [ih (keeps state action next start stepped) run,
        exact state action next start stepped]
      constructor
      · intro holds
        rcases holds with ⟨⟨holds, met⟩, later⟩
        refine ⟨holds, met, fun other otherStep => ?_⟩
        rw [stepped] at otherStep
        cases otherStep
        exact later
      · intro holds
        rcases holds with ⟨holds, met, later⟩
        exact ⟨⟨holds, met⟩, later next stepped⟩

/-- Conditions that agree where a third one holds agree along a run that meets that one. -/
theorem meets_congr {usable fine other : σ → α → Prop}
    (same : ∀ state action, usable state action → (fine state action ↔ other state action))
    {state : σ} {actions : List α} (meets : Meets step usable state actions)
    : Meets step fine state actions ↔ Meets step other state actions := by
  induction actions generalizing state with
  | nil => exact Iff.rfl
  | cons action rest ih =>
      refine and_congr (same state action meets.1) ?_
      exact forall_congr' fun next => forall_congr' fun stepped => ih (meets.2 next stepped)

end Machine
