import Mathlib.Data.List.Forall2
import Mathlib.Logic.Function.Basic

/-! A computation whose result is kept in one cell per key: the first request of a key fills
the cell, and every later request of the key gets what is in it.
-/

namespace Memo

variable {α κ ν : Type} [DecidableEq κ]

variable (key : α → κ) (compute : α → Option ν)

/-- One request, with the cells after it; a computation that fails ends everything. -/
def fetch (cells : κ → Option ν) (request : α) : Option (ν × (κ → Option ν)) :=
  match cells (key request) with
  | some value => some (value, cells)
  | none =>
      (compute request).map fun value =>
        (value, Function.update cells (key request) (some value))

/-- What a sequence of requests gets. -/
def fetchAll (cells : κ → Option ν) : List α → Option (List ν)
  | [] => some []
  | request :: later => do
      let (value, next) ← fetch key compute cells request
      let values ← fetchAll next later
      some (value :: values)

variable {key compute}

/-- Whether or not the cell was filled, it holds what the request gets. -/
theorem fetch_eq {cells : κ → Option ν} {request : α}
    : fetch key compute cells request
      = ((cells (key request)).or (compute request)).map fun value =>
          (value, Function.update cells (key request) (some value)) := by
  unfold fetch
  split
  case _ value filled =>
    rw [filled, Option.some_or, Option.map_some, ← filled, Function.update_eq_self]
  case _ empty => simp [empty]

/-- A cell that holds the first request's own computation serves later requests of its key
exactly if they compute the same.
-/
theorem filled_iff {cells : κ → Option ν} {request : α} {value : ν} {later : List α}
    (own : compute request = some value)
    (holds : ∀ other, cells (key request) = some other → other = value)
    : (∀ other ∈ later, ∀ result,
          Function.update cells (key request) (some value) (key other) = some result
          → compute other = some result)
      ↔ (∀ other ∈ later, ∀ result,
          cells (key other) = some result → compute other = some result)
        ∧ ∀ other ∈ later, key request = key other → compute request = compute other := by
  constructor
  · intro served
    refine ⟨?_, ?_⟩
    · intro other member result filled
      refine served other member result ?_
      by_cases same : key other = key request
      · rw [same, Function.update_self, holds result (same ▸ filled)]
      · rwa [Function.update_of_ne same]
    · intro other member same
      rw [own, served other member value (by rw [← same, Function.update_self])]
  · rintro ⟨kept, agree⟩ other member result served
    by_cases same : key other = key request
    · rw [same, Function.update_self] at served
      rw [← agree other member same.symm, own, served]
    · rw [Function.update_of_ne same] at served
      exact kept other member result served

/-- Every request gets its own computation exactly when a filled cell holds what each of its
requests computes, and requests of one key compute the same; by induction on the requests.
-/
theorem fetchAll_own_iff {cells : κ → Option ν} {requests : List α}
    (computes : ∀ request ∈ requests, (compute request).isSome)
    : (∃ values, fetchAll key compute cells requests = some values
        ∧ List.Forall₂ (fun request value => compute request = some value) requests values)
      ↔ (∀ request ∈ requests, ∀ value,
          cells (key request) = some value → compute request = some value)
        ∧ requests.Pairwise fun first second =>
          key first = key second → compute first = compute second := by
  induction requests generalizing cells with
  | nil => simp [fetchAll]
  | cons request later ih =>
      obtain ⟨own, computed⟩ := Option.isSome_iff_exists.mp (computes request (by simp))
      obtain ⟨value, got⟩ : ∃ value, (cells (key request)).or (compute request) = some value := by
        rw [computed]
        cases cells (key request) <;> simp
      have fetched : fetchAll key compute cells (request :: later)
          = (fetchAll key compute (Function.update cells (key request) (some value))
              later).map (value :: ·) := by
        simp only [fetchAll, fetch_eq, got, Option.map_eq_bind, Option.bind_eq_bind,
          Option.bind_some, Function.comp_def]
      have holds : ∀ other, cells (key request) = some other → other = value := by
        intro other filled
        simpa [filled] using got
      have head : compute request = some value
          ↔ ∀ other, cells (key request) = some other → compute request = some other := by
        constructor
        · intro owned other filled
          rw [owned, holds other filled]
        · intro kept
          cases filled : cells (key request) with
          | none => simpa [filled] using got
          | some other => rw [kept other filled, holds other filled]
      have tail := @ih (Function.update cells (key request) (some value))
        fun other member => computes other (by simp [member])
      rw [List.pairwise_cons, List.forall_mem_cons, ← head, fetched]
      constructor
      · intro holds
        rcases holds with ⟨values, run, matched⟩
        obtain ⟨rest, later_run, rfl⟩ := Option.map_eq_some_iff.mp run
        obtain ⟨owned, others⟩ := List.forall₂_cons.mp matched
        obtain ⟨served, agree⟩ := tail.mp ⟨rest, later_run, others⟩
        obtain ⟨kept, same⟩ := (filled_iff owned holds).mp served
        exact ⟨⟨owned, kept⟩, same, agree⟩
      · intro holds
        rcases holds with ⟨⟨owned, kept⟩, same, agree⟩
        obtain ⟨rest, run, others⟩ := tail.mpr ⟨(filled_iff owned holds).mpr ⟨kept, same⟩, agree⟩
        exact ⟨value :: rest, by rw [run, Option.map_some], .cons owned others⟩

end Memo
