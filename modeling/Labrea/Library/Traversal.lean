import Mathlib.Data.List.Nodup
import Mathlib.Data.List.Dedup
import Mathlib.Data.List.Perm.Subperm

/-! Traversals of a table to which elements may be added meanwhile. As long as none is added a
traversal visits everything it has left; after that it may skip any of it, and it may or may
not visit what was added.
-/

namespace Traversal

variable {κ : Type} {left added later : List κ}

/-- What a traversal may have left after `added` has been added to its table. -/
def Continues (left added later : List κ) : Prop :=
  if added = [] then later = left else later.Nodup ∧ ∀ item ∈ later, item ∈ left ∨ item ∈ added

instance [DecidableEq κ] : Decidable (Continues left added later) :=
  inferInstanceAs (Decidable (ite _ _ _))

theorem continues_nil : Continues left [] later ↔ later = left :=
  Iff.of_eq (if_pos rfl)

theorem Continues.mem (continues : Continues left added later) {item : κ} (member : item ∈ later)
    : item ∈ left ∨ item ∈ added := by
  rw [Continues] at continues
  split_ifs at continues with none
  · exact Or.inl (continues ▸ member)
  · exact continues.2 item member

theorem Continues.nodup (continues : Continues left added later) (nodup : left.Nodup)
    : later.Nodup := by
  rw [Continues] at continues
  split_ifs at continues with none
  · exact continues ▸ nodup
  · exact continues.1

/-- A traversal visits nothing twice that it has left once. -/
theorem Continues.subperm (continues : Continues left added later)
    : later.Subperm (left ++ added) := by
  rw [Continues] at continues
  split_ifs at continues with none
  · rw [continues, none, List.append_nil]
  · exact continues.1.subperm fun item member =>
      List.mem_append.mpr (continues.2 item member)

/-- A traversal may go on to visit everything. -/
theorem continues_all [DecidableEq κ] (left added : List κ)
    : ∃ later, Continues left added later ∧ ∀ item, item ∈ later ↔ item ∈ left ∨ item ∈ added := by
  by_cases none : added = []
  · subst none
    exact ⟨left, continues_nil.mpr rfl, by simp⟩
  · refine ⟨(left ++ added).dedup, ?_, by simp⟩
    rw [Continues, if_neg none]
    exact ⟨List.nodup_dedup _, fun item member => by simpa using member⟩

end Traversal
