import Labrea.TableTraversal

/-! The boundary of a table, which `#` and `table.insert` go by: a positive integer whose element
is there and whose next is not, or 0 if the first is not there.
-/

namespace Labrea.LuaTable

open TableKey (toInt number)
open Table (bisect)

/-- The index is 0 or present, and the next one is absent. -/
def IsBoundary (present : ℕ → Bool) (n : ℕ) : Prop :=
  (n = 0 ∨ present n) ∧ present (n + 1) = false

-----------------------------------------------------------------------------------------
-- The searches
-----------------------------------------------------------------------------------------

/-- The binary search ends at a boundary, by induction on its steps: the lower end stays present
and the upper one absent.
-/
theorem isBoundary_bisect {present : ℕ → Bool}
    : ∀ {steps i j : ℕ}, i < j → j - i ≤ steps + 1 → (i = 0 ∨ present i) → present j = false
      → IsBoundary present (bisect present steps i j) ∧ bisect present steps i j < j := by
  intro steps
  induction steps with
  | zero =>
      intro i j less bound lower upper
      have next : j = i + 1 := by omega
      exact ⟨⟨lower, next ▸ upper⟩, less⟩
  | succ steps ih =>
      intro i j less bound lower upper
      rw [bisect]
      dsimp only
      split_ifs with apart here
      · exact ih (by omega) (by omega) (Or.inr here) upper
      · obtain ⟨boundary, below⟩ := ih (show i < (i + j) / 2 by omega) (by omega) lower
          (by simpa using here)
        exact ⟨boundary, by omega⟩
      · have next : j = i + 1 := by omega
        exact ⟨⟨lower, next ▸ upper⟩, less⟩

namespace Table

variable {Key Val : Type} [TableKey Key] [DecidableEq Key] {t : Table Key Val}

/-- The element of an `int` key, by `luaH_getnum`. -/
def presentNum (t : Table Key Val) (n : ℕ) : Bool :=
  (t.getnum n).isSome

theorem getnum_eq {n : ℕ} (bound : n < 2 ^ 31) : t.getnum n = t.lookup (number n) := by
  rw [getnum, lookup, luaHGet, TableKey.toInt_number n (by omega) (by omega)]

theorem presentNum_eq {n : ℕ} (bound : n < 2 ^ 31)
    : t.presentNum n = (t.lookup (number n)).isSome := by
  rw [presentNum, getnum_eq bound]

/-- In the array part it is found where the searches of the boundary look. -/
theorem presentNum_array {n : ℕ} (positive : 0 < n) (le : n ≤ t.sizearray)
    : t.presentNum n = (t.array (n - 1)).isSome := by
  have place : ((n : ℤ) - 1).toNat = n - 1 := by omega
  rw [presentNum, getnum, luaHGetnum, if_pos (by omega), place]
  rfl

/-- Beyond an array part without a hash part nothing is present. -/
theorem Valid.presentNum_dummy (valid : t.Valid) (dummy : t.dummy) {n : ℕ}
    (beyond : t.sizearray < n)
    : t.presentNum n = false := by
  have missing : t.chain (number n) = none := by
    refine Option.eq_none_iff_forall_ne_some.mpr fun i found => ?_
    have := valid.chain_eq_some.mp found
    rw [(valid.unused dummy).2 i] at this
    cases this
  rw [presentNum, getnum, luaHGetnum, if_neg (by omega), missing]
  rfl

/-- The distinct keys of a run of present integers are all keys of the table. -/
theorem Valid.le_length_keys (valid : t.Valid) {n : ℕ} (bound : n < 2 ^ 31)
    (present : ∀ m, 0 < m → m ≤ n → t.presentNum m)
    : n ≤ t.keys.length := by
  have nodup : ((List.range n).map fun i => (number ((i + 1 : ℕ) : ℤ) : Key)).Nodup := by
    refine List.Nodup.map_on (fun i first j second same => ?_) List.nodup_range
    rw [List.mem_range] at first second
    have index := congrArg arrayindex same
    rw [arrayindex_number (by omega) (by omega), arrayindex_number (by omega) (by omega)] at index
    omega
  have subset : ((List.range n).map fun i => (number ((i + 1 : ℕ) : ℤ) : Key)) ⊆ t.keys := by
    intro key member
    obtain ⟨i, below, rfl⟩ := List.mem_map.mp member
    rw [List.mem_range] at below
    rw [valid.mem_keys, ← Option.isSome_iff_exists, ← presentNum_eq (by omega)]
    exact present (i + 1) (by omega) (by omega)
  simpa using (nodup.subperm subset).length_le

/-- The linear search ends at a boundary: a table has no more present integers than elements. -/
theorem Valid.linearSearch_boundary (valid : t.Valid)
    : ∀ {steps i : ℕ}, 0 < i → i + steps < 2 ^ 31 → t.keys.length < i + steps
      → (∀ m, 0 < m → m < i → t.presentNum m)
      → IsBoundary t.presentNum (t.linearSearch steps i) ∧ t.linearSearch steps i + 1 < 2 ^ 31 := by
  intro steps
  induction steps with
  | zero =>
      intro i positive bound large present
      have next : i - 1 + 1 = i := by omega
      have absent : ¬ t.presentNum i := fun here => by
        have := valid.le_length_keys (show i < 2 ^ 31 by omega) fun m positive le =>
          (Nat.lt_or_eq_of_le le).elim (present m positive) fun same => same ▸ here
        omega
      refine ⟨⟨?_, by rw [linearSearch, next]; simpa using absent⟩, by rw [linearSearch]; omega⟩
      rcases Nat.eq_or_lt_of_le positive with first | more
      · exact Or.inl (by rw [linearSearch]; omega)
      · exact Or.inr (present _ (by rw [linearSearch]; omega) (by rw [linearSearch]; omega))
  | succ steps ih =>
      intro i positive bound large present
      rw [linearSearch]
      split_ifs with here
      · refine ih (Nat.succ_pos i) (by omega) (by omega) fun m positive below => ?_
        rcases Nat.lt_succ_iff_lt_or_eq.mp below with less | rfl
        · exact present m positive less
        · exact here
      · have next : i - 1 + 1 = i := by omega
        refine ⟨⟨?_, ?_⟩, by omega⟩
        · rcases Nat.eq_or_lt_of_le positive with first | more
          · exact Or.inl (by omega)
          · exact Or.inr (present _ (by omega) (by omega))
        · rw [next]
          simpa [presentNum] using here

/-- The doubling search ends at a boundary, by induction on its steps: it doubles an index that
has not passed the greatest `int` yet.
-/
theorem Valid.unboundSearchFrom_boundary (valid : t.Valid)
    : ∀ {steps i j : ℕ}, i < j → j ≤ maxInt → maxInt < j * 2 ^ steps → (i = 0 ∨ t.presentNum i)
      → IsBoundary t.presentNum (t.unboundSearchFrom steps i j)
        ∧ t.unboundSearchFrom steps i j + 1 < 2 ^ 31 := by
  intro steps
  induction steps with
  | zero => exact fun _ bound large _ => by omega
  | succ steps ih =>
      intro i j less bound large lower
      have sizes : maxInt < 2 ^ 31 := by decide
      rw [unboundSearchFrom]
      split_ifs with here overflows
      · have length := t.length_keys_le
        have sizes := valid.sizes_le
        exact valid.linearSearch_boundary Nat.one_pos (by omega) (by omega)
          fun m positive below => by omega
      · refine ih (by omega) (by omega) ?_ (Or.inr here)
        rwa [Nat.pow_succ', ← Nat.mul_assoc, Nat.mul_comm j] at large
      · obtain ⟨boundary, below⟩ : IsBoundary t.presentNum (bisect t.presentNum (j - i) i j)
            ∧ bisect t.presentNum (j - i) i j < j :=
          isBoundary_bisect less (by omega) lower (by simpa [presentNum] using here)
        exact ⟨boundary, (Nat.succ_le_of_lt below).trans_lt (by omega)⟩

/-- `luaH_getn` gives a boundary. -/
theorem Valid.luaHGetn_boundary (valid : t.Valid)
    : IsBoundary t.presentNum t.luaHGetn ∧ t.luaHGetn + 1 < 2 ^ 31 := by
  have size := valid.sizes_le
  have last : t.sizearray = 0 ∨ 0 < t.sizearray := Nat.eq_zero_or_pos _
  have full (positive : 0 < t.sizearray)
      (long : ¬ (0 < t.sizearray ∧ (t.array (t.sizearray - 1)).isNone))
      : t.presentNum t.sizearray := by
    rw [presentNum_array positive le_rfl, Option.isSome_iff_ne_none]
    exact fun none => long ⟨positive, by simp [none]⟩
  rw [luaHGetn]
  split_ifs with short dummy
  · obtain ⟨positive, absent⟩ := short
    have searched : IsBoundary (fun m => (t.array (m - 1)).isSome)
          (bisect (fun m => (t.array (m - 1)).isSome) t.sizearray 0 t.sizearray)
        ∧ bisect (fun m => (t.array (m - 1)).isSome) t.sizearray 0 t.sizearray < t.sizearray :=
      isBoundary_bisect positive (Nat.le_succ _) (Or.inl rfl) (by simpa using absent)
    revert searched
    generalize bisect (fun m => (t.array (m - 1)).isSome) t.sizearray 0 t.sizearray = n
    intro holds
    obtain ⟨⟨lower, upper⟩, below⟩ := holds
    refine ⟨⟨?_, by rwa [presentNum_array n.succ_pos below]⟩, by omega⟩
    rcases Nat.eq_zero_or_pos n with zero | positive
    · exact Or.inl zero
    · refine lower.imp_right fun present => ?_
      rwa [presentNum_array positive below.le]
  · refine ⟨⟨last.imp_right fun positive => ?_, valid.presentNum_dummy dummy (Nat.lt_succ_self _)⟩,
      by omega⟩
    exact full positive short
  · refine valid.unboundSearchFrom_boundary (Nat.lt_succ_self _) ?_ ?_
      (last.imp_right fun positive => full positive short)
    · have greatest : maxInt = 2 ^ 31 - 3 := rfl
      omega
    · have greatest : maxInt = 2 ^ 31 - 3 := rfl
      omega

/-- `table.insert` overwrites nothing: whatever indices a table has, the element goes to one that
is absent and comes next after a present one, or is 1.
-/
theorem insert_extends {t later : Table Key Val} (made : t.Made) {val : Val}
    (inserted : t.tinsert val = .ok later)
    : (t.luaHGetn = 0 ∨ (t.lookup (number t.luaHGetn)).isSome)
      ∧ t.lookup (number (t.luaHGetn + 1)) = none
      ∧ later.lookup = Function.update t.lookup (number (t.luaHGetn + 1)) (some val) := by
  obtain ⟨⟨lower, upper⟩, bound⟩ := made.valid.luaHGetn_boundary
  refine ⟨lower.imp_right fun present => ?_, ?_, (made.valid.of_assign inserted).2⟩
  · rwa [presentNum_eq (by omega)] at present
  · rw [presentNum_eq bound] at upper
    simpa using upper

theorem insert_extends_two
    : let t : Table ℤ ℕ := (⟨0, fun _ => none, 0, true, fun _ => .empty, 0⟩
        : Table ℤ ℕ).setarrayvector 2
      let later := t.write (.array 0) (some 10)
      (t.luaHGetn = 0 ∨ (t.lookup (number t.luaHGetn)).isSome)
      ∧ t.lookup (number (t.luaHGetn + 1)) = none
      ∧ later.lookup = Function.update t.lookup (number (t.luaHGetn + 1)) (some 10) := by
  intro t later
  have new : luaHNew 2 0 = .ok t := rfl
  have boundary : t.luaHGetn = 0 := by decide
  have found : t.luaHGet 1 = some (.array 0) := rfl
  have inserted : t.tinsert 10 = .ok later := by
    rw [tinsert, boundary]
    exact assign_found found _
  exact insert_extends (.new (by decide) new) inserted

end Table

end Labrea.LuaTable
