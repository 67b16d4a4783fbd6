import Mathlib.Logic.Hydra

/-! Termination of work that makes more work: each step does one item of a bag and may put
smaller ones in its place, or does none and makes a number smaller.
-/

namespace Descent

open Relation (CutExpand ReflTransGen TransGen)

variable {α σ : Type} {r : α → α → Prop}

/-- One item is replaced by smaller ones, and any items may be lost. -/
def Shrinks (r : α → α → Prop) (later earlier : Multiset α) : Prop :=
  ∃ item ∈ earlier, ∃ made : Multiset α,
    (∀ new ∈ made, r new item) ∧ later + {item} ≤ earlier + made

/-- The relation below items that have no infinite descent. -/
def Settled (r : α → α → Prop) (new item : α) : Prop :=
  r new item ∧ Acc r item

/-- An item with no infinite descent is not below itself, by induction on its descents. -/
theorem not_self_of_acc {item : α} (acc : Acc r item) : ¬ r item item := by
  induction acc with
  | intro item _ ih => exact fun self => ih item self self

instance : Std.Irrefl (Settled r) :=
  ⟨fun _ ⟨self, acc⟩ => not_self_of_acc acc self⟩

theorem Settled.acc {item : α} (acc : Acc r item) : Acc (Settled r) item :=
  Subrelation.accessible And.left acc

/-- Items can be lost one by one, by induction on those that are. -/
theorem reaches_lost (bag lost : Multiset α) : ReflTransGen (CutExpand r) bag (bag + lost) := by
  induction lost using Multiset.induction_on with
  | empty =>
      rw [add_zero]
  | cons item lost ih =>
      refine ih.tail ⟨0, item, by simp, ?_⟩
      rw [Multiset.add_cons, add_zero, Multiset.add_comm, Multiset.singleton_add]

/-- A bag of settled items shrinks to one, in steps that each take out one item. -/
theorem Shrinks.steps {later earlier : Multiset α} (shrinks : Shrinks r later earlier)
    (settled : ∀ item ∈ earlier, Acc r item)
    : TransGen (CutExpand (Settled r)) later earlier ∧ ∀ item ∈ later, Acc r item := by
  obtain ⟨item, member, made, smaller, bound⟩ := shrinks
  obtain ⟨lost, split⟩ := Multiset.le_iff_exists_add.mp bound
  constructor
  · refine .tail' (reaches_lost later lost)
      ⟨made, item, fun new isMade => ⟨smaller new isMade, settled item member⟩, ?_⟩
    rw [split, add_right_comm]
  · intro other inLater
    have somewhere := Multiset.mem_of_le bound (Multiset.mem_add.mpr (Or.inl inLater))
    rcases Multiset.mem_add.mp somewhere with old | new
    · exact settled other old
    · exact (settled item member).inv (smaller other new)

/-- A bag of settled items cannot shrink for ever. -/
theorem acc_shrinks {bag : Multiset α} (settled : ∀ item ∈ bag, Acc r item)
    : Acc (Shrinks r) bag := by
  have acc : Acc (TransGen (CutExpand (Settled r))) bag :=
    (Relation.acc_of_singleton fun item member =>
      (Settled.acc (settled item member)).cutExpand).transGen
  induction acc with
  | intro bag _ ih =>
      refine .intro bag fun later shrinks => ?_
      obtain ⟨steps, stillSettled⟩ := shrinks.steps settled
      exact ih later steps stillSettled

/-- Steps that shrink a bag of settled items, or keep within it and make a number smaller, come
to an end. Witness: the lexicographic order, by induction on its descents.
-/
theorem acc_of_bag {moves : σ → σ → Prop} {inv : σ → Prop} (bag : σ → Multiset α) (rank : σ → ℕ)
    (keeps : ∀ state next, inv state → moves state next → inv next)
    (descends : ∀ state next, inv state → moves state next
      → Shrinks r (bag next) (bag state) ∨ bag next ≤ bag state ∧ rank next < rank state)
    {state : σ} (holds : inv state) (settled : ∀ item ∈ bag state, Acc r item)
    : Acc (fun next state => moves state next) state := by
  have acc : Acc (Prod.Lex (Shrinks r) (· < ·)) (bag state, rank state) :=
    Prod.lexAccessible (acc_shrinks settled) (fun n => Nat.lt_wfRel.wf.apply n) (rank state)
  clear settled
  generalize measured : (bag state, rank state) = measure at acc
  induction acc generalizing state with
  | intro measure _ ih =>
      subst measured
      refine .intro state fun next moved => ih _ ?_ (keeps state next holds moved) rfl
      rcases descends state next holds moved with shrinks | ⟨within, smaller⟩
      · exact .left _ _ shrinks
      · rcases within.eq_or_lt with same | fewer
        · rw [same]
          exact .right _ smaller
        · obtain ⟨item, bound⟩ := Multiset.lt_iff_cons_le.mp fewer
          refine .left _ _ ⟨item, Multiset.mem_of_le bound (Multiset.mem_cons_self _ _), 0,
            by simp, ?_⟩
          rw [add_zero, Multiset.add_comm, Multiset.singleton_add]
          exact bound

end Descent
