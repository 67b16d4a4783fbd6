import Labrea.Library.Traced

/-! A program that runs another one exactly once, in the middle of its own events. -/

namespace Traced.Program

variable {σ ε η α β γ : Type}

/-- From `state`, `outer` performs the events of `front` and then runs `inner` from `entry`.
Where `inner` halts, so does `outer`; where it returns, the events of `back` follow and
`finish` gives the value and state that `outer` returns.
-/
structure Encloses (outer : Program σ ε η β) (state : σ) (front : List ε)
    (inner : Program σ ε η α) (entry : σ) (back : List ε) (finish : α → σ → β × σ)
    : Prop where
  halted : ∀ trace reason, inner entry = ⟨trace, .error reason⟩
    → outer state = ⟨front ++ trace, .error reason⟩
  returned : ∀ trace value next, inner entry = ⟨trace, .ok (value, next)⟩
    → outer state = ⟨front ++ trace ++ back, .ok (finish value next)⟩

namespace Encloses

variable {outer : Program σ ε η β} {inner : Program σ ε η α} {state entry next : σ} {front back early late : List ε}
  {finish : α → σ → β × σ}

/-- A program runs itself. -/
theorem self : Encloses inner entry [] inner entry [] Prod.mk where
  halted _ _ run := run
  returned trace _ _ run := by rw [run, List.nil_append, List.append_nil]

/-- What returns before the enclosing program adds to the front. -/
theorem after {head : Program σ ε η γ} {rest : γ → Program σ ε η β} {value : γ}
    (returned : head state = ⟨early, .ok (value, next)⟩)
    (encloses : Encloses (rest value) next front inner entry back finish)
    : Encloses (head >>= rest) state (early ++ front) inner entry back finish where
  halted trace reason run := by
    rw [bind_of_ok returned, encloses.halted trace reason run, List.append_assoc]
  returned trace value next run := by
    rw [bind_of_ok returned, encloses.returned trace value next run]
    simp only [List.append_assoc]

/-- What returns after the enclosing program adds to the back. -/
theorem before {head : Program σ ε η β} {rest : β → Program σ ε η γ}
    {last : α → σ → γ × σ}
    (encloses : Encloses head state front inner entry back finish)
    (later : ∀ trace value next, inner entry = ⟨trace, .ok (value, next)⟩
      → rest (finish value next).1 (finish value next).2 = ⟨late, .ok (last value next)⟩)
    : Encloses (head >>= rest) state front inner entry (back ++ late) last where
  halted trace reason run := bind_of_error (encloses.halted trace reason run) rest
  returned trace value next run := by
    rw [bind_of_ok (encloses.returned trace value next run), later trace value next run]
    simp only [List.append_assoc]

/-- The whole trace, whether the inner program returns or halts. -/
theorem trace (encloses : Encloses outer state front inner entry back finish)
    : (outer state).trace = front ++ (inner entry).trace ++ back
      ∨ (outer state).trace = front ++ (inner entry).trace := by
  match run : inner entry with
  | ⟨events, .error reason⟩ =>
      exact Or.inr (by rw [encloses.halted events reason run])
  | ⟨events, .ok (value, next)⟩ =>
      exact Or.inl (by rw [encloses.returned events value next run])

/-- The value, where it depends on that of the inner program alone. -/
theorem value {result : α → β} {last : α → σ → σ}
    (encloses
      : Encloses outer state front inner entry back
          fun value next => (result value, last value next))
    : (outer state).result.map Prod.fst = ((inner entry).result.map Prod.fst).map result := by
  match run : inner entry with
  | ⟨events, .error reason⟩ =>
      rw [encloses.halted events reason run]
      rfl
  | ⟨events, .ok (value, next)⟩ =>
      rw [encloses.returned events value next run]
      rfl

end Encloses
end Traced.Program
