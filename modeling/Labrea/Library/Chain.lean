import Mathlib.Algebra.Group.End
import Mathlib.Data.Finset.Card
import Mathlib.Logic.Relation

/-! Chains of cells, where each cell may name the next one. Cells can be put into a chain, or
moved to another place; what a cell can reach is known afterwards.
-/

namespace Chain

variable {next : ℕ → Option ℕ} {size : ℕ}

/-- The cells on the chain from one cell. -/
def Reaches (next : ℕ → Option ℕ) : ℕ → ℕ → Prop :=
  Relation.ReflTransGen fun i j => next i = some j

/-- Searches the chain from a cell on, over at most `fuel` cells. -/
def find (next : ℕ → Option ℕ) (found : ℕ → Bool) : ℕ → ℕ → Option ℕ
  | 0, _ => none
  | fuel + 1, i => if found i then some i else (next i).bind (find next found fuel)

/-- Chains among the first `size` cells: no two cells name the same one, and every chain ends. -/
structure Linked (size : ℕ) (next : ℕ → Option ℕ) : Prop where
  bounded : ∀ i j, next i = some j → i < size ∧ j < size
  joins : ∀ i j k, next i = some k → next j = some k → i = j
  ends : WellFounded fun j i => next i = some j

theorem linked_none (size : ℕ) : Linked size fun _ => none where
  bounded _ _ named := nomatch named
  joins _ _ _ named := nomatch named
  ends := ⟨fun _ => ⟨_, fun _ named => nomatch named⟩⟩

/-- A chain does not come back to its cell, by induction on the cell. -/
theorem Linked.acyclic (linked : Linked size next) {i : ℕ}
    : ∀ j, Reaches next i j → next j ≠ some i := by
  induction i using linked.ends.induction with
  | h i ih =>
      intro j reaches named
      rcases Relation.ReflTransGen.cases_head reaches with rfl | ⟨k, first, rest⟩
      · exact ih i named i .refl named
      · exact ih k first i (rest.tail named) first

theorem Linked.reaches_lt (linked : Linked size next) {i j : ℕ} (reaches : Reaches next i j)
    (start : i < size)
    : j < size := by
  rcases Relation.ReflTransGen.cases_tail reaches with rfl | ⟨k, _, named⟩
  · exact start
  · exact (linked.bounded k j named).2

/-- What a search finds is on the chain, by induction on its fuel. -/
theorem find_sound {found : ℕ → Bool} {fuel i j : ℕ} (search : find next found fuel i = some j)
    : Reaches next i j ∧ found j := by
  induction fuel generalizing i with
  | zero => cases search
  | succ fuel ih =>
      rw [find] at search
      split_ifs at search with here
      · cases search
        exact ⟨.refl, here⟩
      · obtain ⟨k, named, later⟩ := Option.bind_eq_some_iff.mp search
        obtain ⟨reaches, there⟩ := ih later
        exact ⟨.head named reaches, there⟩

/-- A search with fuel for all cells of the chain misses none of them, by induction on the
chain.
-/
theorem Linked.find_complete (linked : Linked size next) {found : ℕ → Bool} {i : ℕ}
    : ∀ cells : Finset ℕ, (∀ j, Reaches next i j → j ∈ cells)
      → find next found cells.card i = none → ∀ j, Reaches next i j → found j = false := by
  induction i using linked.ends.induction with
  | h i ih =>
      intro cells within search j reaches
      have card : cells.card = (cells.erase i).card + 1 :=
        (Finset.card_erase_add_one (within i .refl)).symm
      rw [card, find] at search
      split_ifs at search with here
      rw [Bool.not_eq_true] at here
      rcases Relation.ReflTransGen.cases_head reaches with rfl | ⟨k, named, rest⟩
      · exact here
      · rw [named, Option.bind_some] at search
        refine ih k named (cells.erase i) ?_ search j rest
        intro l later
        refine Finset.mem_erase.mpr ⟨?_, within l (.head named later)⟩
        intro same
        subst same
        exact linked.acyclic l later named

/-- A search over as many cells as there are finds the one cell it looks for exactly if that
is on the chain.
-/
theorem Linked.find_eq_some (linked : Linked size next) {found : ℕ → Bool} {i j : ℕ}
    (start : i < size) (one : ∀ k l, found k → found l → k = l)
    : find next found size i = some j ↔ Reaches next i j ∧ found j := by
  refine ⟨find_sound, fun ⟨reaches, here⟩ => ?_⟩
  rcases search : find next found size i with _ | k
  · have within : ∀ l, Reaches next i l → l ∈ Finset.range size :=
      fun l later => Finset.mem_range.mpr (linked.reaches_lt later start)
    rw [← Finset.card_range size] at search
    have missed := linked.find_complete (Finset.range size) within search j reaches
    exact absurd (missed.symm.trans here) (by simp)
  · rw [one k j (find_sound search).2 here]

/-- The cell before another one on its chain. -/
theorem Linked.find_previous (linked : Linked size next) {i target : ℕ} (start : i < size)
    (reaches : Reaches next i target) (apart : i ≠ target)
    : ∃ previous, find next (fun j => next j = some target) size i = some previous
        ∧ next previous = some target := by
  rcases Relation.ReflTransGen.cases_tail reaches with rfl | ⟨previous, before, named⟩
  · exact absurd rfl apart
  · refine ⟨previous, (linked.find_eq_some start ?_).mpr ⟨before, by simpa using named⟩, named⟩
    intro k l first second
    exact linked.joins k l target (by simpa using first) (by simpa using second)

-----------------------------------------------------------------------------------------
-- Putting a cell into a chain
-----------------------------------------------------------------------------------------

/-- Puts a cell behind another one. -/
def insertAfter (next : ℕ → Option ℕ) (place cell : ℕ) : ℕ → Option ℕ :=
  Function.update (Function.update next cell (next place)) place (some cell)

section

variable {place cell : ℕ}

theorem insertAfter_place : insertAfter next place cell place = some cell :=
  Function.update_self _ _ _

theorem insertAfter_cell (apart : cell ≠ place)
    : insertAfter next place cell cell = next place := by
  rw [insertAfter, Function.update_of_ne apart, Function.update_self]

theorem insertAfter_other {i : ℕ} (notPlace : i ≠ place) (notCell : i ≠ cell)
    : insertAfter next place cell i = next i := by
  rw [insertAfter, Function.update_of_ne notPlace, Function.update_of_ne notCell]

/-- What an inserted cell and its place name, and what the others do. -/
theorem insertAfter_eq_some (apart : cell ≠ place) (unnamed : ∀ i, next i ≠ some cell)
    (free : next cell = none) {i j : ℕ}
    : insertAfter next place cell i = some j
      ↔ (i = place ∧ j = cell) ∨ (i = cell ∧ next place = some j)
        ∨ (i ≠ place ∧ j ≠ cell ∧ next i = some j) := by
  by_cases notPlace : i = place
  · subst notPlace
    rw [insertAfter_place]
    simp [Ne.symm apart, eq_comm]
  · by_cases notCell : i = cell
    · subst notCell
      rw [insertAfter_cell apart]
      simp [notPlace, free]
    · rw [insertAfter_other notPlace notCell]
      have named : next i = some j → j ≠ cell := by
        intro named same
        subst same
        exact unnamed i named
      simp only [notPlace, notCell, false_and, false_or, ne_eq, not_false_eq_true, true_and]
      exact ⟨fun found => ⟨named found, found⟩, And.right⟩

variable (linked : Linked size next) (apart : cell ≠ place)
  (unnamed : ∀ i, next i ≠ some cell) (free : next cell = none)

include linked apart unnamed free

theorem Linked.insertAfter (placeBound : place < size) (cellBound : cell < size)
    : Linked size (insertAfter next place cell) where
  bounded i j named := by
    rcases (insertAfter_eq_some apart unnamed free).mp named with ⟨rfl, rfl⟩ | ⟨rfl, after⟩
      | ⟨_, _, old⟩
    · exact ⟨placeBound, cellBound⟩
    · exact ⟨cellBound, (linked.bounded place j after).2⟩
    · exact linked.bounded i j old
  joins i j k first second := by
    rcases (insertAfter_eq_some apart unnamed free).mp first with ⟨atPlace, new⟩ | ⟨atCell, after⟩
      | ⟨outside, old, named⟩ <;>
    rcases (insertAfter_eq_some apart unnamed free).mp second with
      ⟨atPlace', new'⟩ | ⟨atCell', after'⟩ | ⟨outside', old', named'⟩
    · exact atPlace.trans atPlace'.symm
    · exact absurd (new ▸ after') (unnamed place)
    · exact absurd new old'
    · exact absurd (new' ▸ after) (unnamed place)
    · exact atCell.trans atCell'.symm
    · exact absurd (linked.joins j place k named' after) outside'
    · exact absurd new' old
    · exact absurd (linked.joins i place k named after') outside
    · exact linked.joins i j k named named'
  ends := by
    have behind (i : ℕ) (named : Chain.insertAfter next place cell cell = some i)
        : next place = some i ∧ i ≠ cell := by
      rw [insertAfter_cell apart] at named
      refine ⟨named, ?_⟩
      intro same
      subst same
      exact unnamed place named
    have old : ∀ i, i ≠ cell → Acc (fun j i => Chain.insertAfter next place cell i = some j) i := by
      intro i
      induction i using linked.ends.induction with
      | h i ih =>
          intro notCell
          refine ⟨i, fun j named => ?_⟩
          rcases (insertAfter_eq_some apart unnamed free).mp named with ⟨rfl, rfl⟩ | ⟨atCell, _⟩
            | ⟨_, notCell', named'⟩
          · refine ⟨j, fun k named' => ?_⟩
            obtain ⟨after, notCell'⟩ := behind k named'
            exact ih k after notCell'
          · exact absurd atCell notCell
          · exact ih j named' notCell'
    refine ⟨fun i => ?_⟩
    by_cases atCell : i = cell
    · subst atCell
      exact ⟨i, fun j named => old j (behind j named).2⟩
    · exact old i atCell

omit linked unnamed in
/-- What was on a chain stays on it, by induction on the chain. -/
theorem reaches_insertAfter {i j : ℕ} (reaches : Reaches next i j)
    : Reaches (insertAfter next place cell) i j := by
  induction reaches with
  | refl => exact .refl
  | @tail k l _ named ih =>
      by_cases same : k = place
      · subst same
        refine .tail (.tail ih insertAfter_place) ?_
        rw [insertAfter_cell apart]
        exact named
      · refine .tail ih ?_
        rw [insertAfter_other same]
        · exact named
        · intro same
          subst same
          exact absurd (free.symm.trans named) (by simp)

end

-----------------------------------------------------------------------------------------
-- Moving a cell
-----------------------------------------------------------------------------------------

/-- The chains after cells have changed their places. -/
def rename (moved : Equiv.Perm ℕ) (next : ℕ → Option ℕ) (i : ℕ) : Option ℕ :=
  (next (moved.symm i)).map moved

section

variable {moved : Equiv.Perm ℕ}

theorem rename_eq_some {i j : ℕ}
    : rename moved next i = some j ↔ next (moved.symm i) = some (moved.symm j) := by
  rw [rename, Option.map_eq_some_iff]
  constructor
  · intro holds
    obtain ⟨k, named, rfl⟩ := holds
    rw [named, Equiv.symm_apply_apply]
  · intro named
    exact ⟨moved.symm j, named, moved.apply_symm_apply j⟩

theorem Linked.rename (linked : Linked size next)
    (within : ∀ i, moved.symm i < size → i < size)
    : Linked size (rename moved next) where
  bounded i j named := by
    obtain ⟨first, second⟩ := linked.bounded _ _ (rename_eq_some.mp named)
    exact ⟨within i first, within j second⟩
  joins i j k first second :=
    moved.symm.injective
      (linked.joins _ _ _ (rename_eq_some.mp first) (rename_eq_some.mp second))
  ends := by
    refine Subrelation.wf ?_ (InvImage.wf moved.symm linked.ends)
    intro j i named
    exact rename_eq_some.mp named

/-- A moved cell is on the moved chain, by induction on the chain. -/
theorem reaches_rename {i j : ℕ} (reaches : Reaches next i j)
    : Reaches (rename moved next) (moved i) (moved j) := by
  induction reaches with
  | refl => exact .refl
  | tail _ named ih => exact .tail ih (rename_eq_some.mpr (by simpa using named))

end

/-- Moves a cell to a free place, where the cell before it is known. -/
def move (next : ℕ → Option ℕ) (previous place cell : ℕ) : ℕ → Option ℕ :=
  Function.update
    (Function.update (Function.update next previous (some cell)) cell (next place)) place none

/-- Moving a cell exchanges it with the free one. -/
theorem Linked.move_eq (linked : Linked size next) {previous place cell : ℕ}
    (named : next previous = some place) (apart : cell ≠ place)
    (unnamed : ∀ i, next i ≠ some cell) (free : next cell = none)
    : move next previous place cell = Chain.rename (Equiv.swap place cell) next := by
  have before : previous ≠ place := by
    intro same
    subst same
    exact linked.acyclic previous .refl named
  have notCell : previous ≠ cell := by
    intro same
    subst same
    exact absurd (free.symm.trans named) (by simp)
  funext i
  rw [Chain.rename, Equiv.symm_swap]
  by_cases atPlace : i = place
  · subst atPlace
    rw [move, Function.update_self, Equiv.swap_apply_left, free, Option.map_none]
  by_cases atCell : i = cell
  · subst atCell
    rw [move, Function.update_of_ne apart, Function.update_self, Equiv.swap_apply_right]
    rcases after : next place with _ | j
    · rfl
    · have notPlace : j ≠ place := by
        intro same
        subst same
        exact linked.acyclic j .refl after
      have notFree : j ≠ i := by
        intro same
        subst same
        exact unnamed _ after
      rw [Option.map_some, Equiv.swap_apply_of_ne_of_ne notPlace notFree]
  · rw [move, Function.update_of_ne atPlace, Function.update_of_ne atCell,
      Equiv.swap_apply_of_ne_of_ne atPlace atCell]
    by_cases same : i = previous
    · subst same
      rw [Function.update_self, named, Option.map_some, Equiv.swap_apply_left]
    · rw [Function.update_of_ne same]
      rcases after : next i with _ | j
      · rfl
      · have notPlace : j ≠ place := by
          intro same
          subst same
          exact same (linked.joins i previous j after named)
        have notFree : j ≠ cell := by
          intro same
          subst same
          exact unnamed _ after
        rw [Option.map_some, Equiv.swap_apply_of_ne_of_ne notPlace notFree]

end Chain
