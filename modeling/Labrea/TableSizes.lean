import Labrea.TableElements

/-! What a rehash counts, and the sizes it computes from it: how many keys there are in each
slice `(2 ^ (lg - 1), 2 ^ lg]` of the positive integers.
-/

namespace Labrea.LuaTable

open Table (countint computesizes computesizesFrom)
open TableKey (number)

-----------------------------------------------------------------------------------------
-- Logarithms
-----------------------------------------------------------------------------------------

theorem log2Table_eq : ∀ x < 256, log2Table.getD x 0 = if x = 0 then 0 else Nat.log 2 x + 1 := by
  decide +kernel

/-- The loop of `luaO_log2`, by induction on its steps. -/
theorem luaOLog2From_eq {steps x : ℕ} (l : ℤ) (bound : x < 2 ^ (8 * (steps + 1)))
    : luaOLog2From steps l x = l + (if x = 0 then 0 else Nat.log 2 x + 1 : ℕ) := by
  induction steps generalizing l x with
  | zero => rw [luaOLog2From, log2Table_eq x bound]
  | succ steps ih =>
      rw [luaOLog2From]
      split_ifs with large zero zero
      · omega
      · have shifted : x >>> 8 = x / 2 ^ 8 := Nat.shiftRight_eq_div_pow x 8
        have positive : x >>> 8 ≠ 0 := by omega
        have log : Nat.log 2 (x >>> 8) = Nat.log 2 x - 8 := by
          rw [shifted, Nat.log_div_base_pow]
        have atLeast : 8 ≤ Nat.log 2 x :=
          (Nat.le_log_iff_pow_le (by omega) (by omega)).mpr (by omega)
        rw [ih, if_neg positive, log]
        · omega
        · rw [shifted, Nat.div_lt_iff_lt_mul (by omega), ← Nat.pow_add]
          exact bound
      · rw [log2Table_eq x (not_le.mp large), if_pos zero]
      · rw [log2Table_eq x (not_le.mp large), if_neg zero]

/-- `ceillog2` is the exponent of the least power of two that is large enough. -/
theorem ceillog2_le_iff {x l : ℕ} (positive : 0 < x) (bound : x ≤ 2 ^ 32)
    : ceillog2 x ≤ l ↔ x ≤ 2 ^ l := by
  rw [ceillog2, luaOLog2, luaOLog2From_eq _ (by omega)]
  split_ifs with one
  · have room := Nat.two_pow_pos l
    exact iff_of_true (by simp) (by omega)
  · have below : Nat.log 2 (x - 1) < l ↔ x - 1 < 2 ^ l := Nat.log_lt_iff_lt_pow (by omega) one
    omega

-----------------------------------------------------------------------------------------
-- Slices
-----------------------------------------------------------------------------------------

section

variable {Key : Type} [TableKey Key]

/-- The key is an integer of a slice. -/
def InSlice (lg : ℕ) (key : Key) : Prop :=
  InArray maxasize key ∧ ceillog2 (arrayindex key).toNat = lg

instance (lg : ℕ) (key : Key) : Decidable (InSlice lg key) :=
  inferInstanceAs (Decidable (_ ∧ _))

/-- The slices up to one have the keys up to its end. -/
theorem ceillog2_arrayindex {key : Key} {lg : ℕ} (inside : InArray maxasize key)
    : ceillog2 (arrayindex key).toNat ≤ lg ↔ InArray (2 ^ lg) key := by
  obtain ⟨positive, le⟩ := inside
  have bound : (arrayindex key).toNat ≤ 2 ^ 26 := by
    have := Int.toNat_le.mpr le
    exact this
  rw [ceillog2_le_iff (by omega) (by omega), InArray]
  constructor
  · intro small
    exact ⟨positive, by omega⟩
  · intro holds
    obtain ⟨_, small⟩ := holds
    omega

theorem inArray_mono {size larger : ℕ} {key : Key} (le : size ≤ larger)
    (inside : InArray size key)
    : InArray larger key :=
  ⟨inside.1, inside.2.trans (by exact_mod_cast le)⟩

theorem pow_le_maxasize {lg : ℕ} (le : lg ≤ maxbits) : 2 ^ lg ≤ maxasize :=
  Nat.pow_le_pow_right (by omega) le

/-- A count splits where its condition does, by induction on the list. -/
theorem countP_or {α : Type} {p q r : α → Prop} [DecidablePred p] [DecidablePred q]
    [DecidablePred r] (splits : ∀ item, p item ↔ q item ∨ r item)
    (apart : ∀ item, q item → ¬ r item) (items : List α)
    : items.countP (fun item => p item)
      = items.countP (fun item => q item) + items.countP (fun item => r item) := by
  induction items with
  | nil => rfl
  | cons item rest ih =>
      rw [List.countP_cons, List.countP_cons, List.countP_cons, ih]
      simp only [decide_eq_true_eq, splits]
      have := apart item
      by_cases first : q item <;> by_cases second : r item <;> simp_all <;> omega

/-- The number of keys with a place in an array part of a size. -/
def intKeys (size : ℕ) (keys : List Key) : ℕ :=
  keys.countP fun key => InArray size key

/-- The counters of a rehash have the keys of each slice. -/
def Counts (nums : ℕ → ℕ) (keys : List Key) : Prop :=
  ∀ lg, nums lg = keys.countP fun key => InSlice lg key

theorem counts_slices (keys : List Key)
    : Counts (fun lg => keys.countP fun key => InSlice lg key) keys :=
  fun _ => rfl

theorem intKeys_zero (keys : List Key) : intKeys 0 keys = 0 :=
  List.countP_eq_zero.mpr fun key _ => by simpa using not_inArray_zero key

theorem half_pow_succ (lg : ℕ) : 2 ^ (lg + 1) / 2 = 2 ^ lg := by
  rw [Nat.pow_succ, Nat.mul_div_cancel _ Nat.two_pos]

/-- A key of a slice comes after the end of the slices before. -/
theorem inSlice_iff {lg : ℕ} (le : lg ≤ maxbits) (key : Key)
    : InSlice lg key ↔ InArray (2 ^ lg) key ∧ ¬ InArray (2 ^ lg / 2) key := by
  have within := pow_le_maxasize le
  rcases lg with _ | lg
  · constructor
    · intro holds
      obtain ⟨inside, slice⟩ := holds
      exact ⟨(ceillog2_arrayindex inside).mp slice.le, not_inArray_zero key⟩
    · intro holds
      obtain ⟨inside, _⟩ := holds
      have larger := inArray_mono within inside
      exact ⟨larger, Nat.le_zero.mp ((ceillog2_arrayindex larger).mpr inside)⟩
  · rw [half_pow_succ]
    constructor
    · intro holds
      obtain ⟨inside, slice⟩ := holds
      refine ⟨(ceillog2_arrayindex inside).mp slice.le, fun before => ?_⟩
      have := (ceillog2_arrayindex inside).mpr before
      omega
    · intro holds
      obtain ⟨inside, after⟩ := holds
      have larger := inArray_mono within inside
      have le := (ceillog2_arrayindex larger).mpr inside
      refine ⟨larger, Nat.le_antisymm le (Nat.lt_of_not_le fun before => after ?_)⟩
      exact (ceillog2_arrayindex larger).mp before

/-- The keys up to the end of a slice are those before it and its own. -/
theorem Counts.before_succ {nums : ℕ → ℕ} {keys : List Key} {lg : ℕ}
    (counts : Counts nums keys) (le : lg ≤ maxbits)
    : intKeys (2 ^ lg / 2) keys + nums lg = intKeys (2 ^ lg) keys := by
  rw [counts lg, intKeys, intKeys]
  refine (countP_or (fun key => ?_) (fun key before slice => ?_) keys).symm
  · rw [inSlice_iff le]
    refine ⟨fun inside => ?_, ?_⟩
    · by_cases before : InArray (2 ^ lg / 2) key
      · exact Or.inl before
      · exact Or.inr ⟨inside, before⟩
    · intro holds
      rcases holds with before | ⟨inside, _⟩
      · exact inArray_mono (Nat.div_le_self _ _) before
      · exact inside
  · exact ((inSlice_iff le key).mp slice).2 before

/-- A counted key. -/
theorem Counts.countint {nums : ℕ → ℕ} {keys : List Key} (counts : Counts nums keys)
    (key : Key)
    : Counts (Table.countint key nums).1 (key :: keys)
      ∧ (Table.countint key nums).2 + intKeys maxasize keys = intKeys maxasize (key :: keys) := by
  rw [Table.countint]
  split_ifs with inside
  · have inArray : InArray maxasize key := inside
    refine ⟨fun lg => ?_, ?_⟩
    · rw [List.countP_cons, ← counts lg]
      dsimp only
      by_cases slice : lg = ceillog2 (arrayindex key).toNat
      · subst slice
        rw [Function.update_self, if_pos]
        exact decide_eq_true ⟨inArray, rfl⟩
      · rw [Function.update_of_ne slice, if_neg]
        · rfl
        · rw [decide_eq_true_eq]
          exact fun same => slice same.2.symm
    · rw [intKeys, intKeys, List.countP_cons, if_pos (decide_eq_true inArray), Nat.add_comm]
  · have outside : ¬ InArray maxasize key := inside
    refine ⟨fun lg => ?_, ?_⟩
    · rw [List.countP_cons, ← counts lg, if_neg]
      · rfl
      · rw [decide_eq_true_eq]
        exact fun same => outside same.1
    · rw [intKeys, intKeys, List.countP_cons, if_neg (by simpa using outside), Nat.zero_add]
      rfl

-----------------------------------------------------------------------------------------
-- The size of the array part
-----------------------------------------------------------------------------------------

/-- Distinct keys have distinct places. -/
theorem intKeys_le {keys : List Key} (nodup : keys.Nodup) (size : ℕ)
    : intKeys size keys ≤ size := by
  have places : ((keys.filter fun key => InArray size key).map
      fun key => (arrayindex key - 1).toNat).Nodup := by
    refine List.Nodup.map_on (fun key first other second same => ?_) (nodup.filter _)
    have inside := (decide_eq_true_eq.mp (List.mem_filter.mp first).2).1
    have inside' := (decide_eq_true_eq.mp (List.mem_filter.mp second).2).1
    have index : arrayindex key = arrayindex other := by omega
    rw [← number_arrayindex inside, index, number_arrayindex inside']
  have subset : ((keys.filter fun key => InArray size key).map
      fun key => (arrayindex key - 1).toNat) ⊆ List.range size := by
    intro place member
    obtain ⟨key, counted, rfl⟩ := List.mem_map.mp member
    obtain ⟨positive, le⟩ := decide_eq_true_eq.mp (List.mem_filter.mp counted).2
    exact List.mem_range.mpr (by omega)
  have := (places.subperm subset).length_le
  rwa [List.length_map, List.length_range, ← List.countP_eq_length_filter] at this

theorem intKeys_mono {size larger : ℕ} (le : size ≤ larger) (keys : List Key)
    : intKeys size keys ≤ intKeys larger keys :=
  List.countP_mono_left fun _ _ inside =>
    decide_eq_true (inArray_mono le (decide_eq_true_eq.mp inside))

/-- More than half of the places up to the end of a slice have a key. -/
def Dense (keys : List Key) (lg : ℕ) : Prop :=
  2 ^ lg / 2 < intKeys (2 ^ lg) keys

instance (keys : List Key) (lg : ℕ) : Decidable (Dense keys lg) :=
  inferInstanceAs (Decidable (_ < _))

/-- The largest dense size among the first slices, or 0 if there is none. -/
structure BestSize (keys : List Key) (slices n : ℕ) : Prop where
  dense : n = 0 ∨ ∃ lg < slices, n = 2 ^ lg ∧ Dense keys lg
  best : ∀ lg < slices, Dense keys lg → 2 ^ lg ≤ n

theorem BestSize.le_maxasize {keys : List Key} {n : ℕ}
    (best : BestSize keys (maxbits + 1) n)
    : n ≤ maxasize := by
  rcases best.dense with rfl | ⟨lg, below, rfl, _⟩
  · exact Nat.zero_le _
  · exact pow_le_maxasize (Nat.le_of_lt_succ below)

/-- One more slice. -/
theorem BestSize.succ {keys : List Key} {i n : ℕ} (best : BestSize keys i n)
    : (Dense keys i → BestSize keys (i + 1) (2 ^ i))
      ∧ (¬ Dense keys i → BestSize keys (i + 1) n) := by
  refine ⟨fun dense => ⟨Or.inr ⟨i, Nat.lt_succ_self i, rfl, dense⟩, fun lg below _ => ?_⟩,
    fun sparse => ⟨best.dense.imp_right ?_, fun lg below dense => ?_⟩⟩
  · exact Nat.pow_le_pow_right Nat.two_pos (Nat.le_of_lt_succ below)
  · intro holds
    obtain ⟨lg, below, same, dense⟩ := holds
    exact ⟨lg, by omega, same, dense⟩
  · rcases Nat.lt_succ_iff_lt_or_eq.mp below with less | rfl
    · exact best.best lg less dense
    · exact absurd dense sparse

/-- The slices that the loop leaves out are not dense. -/
theorem BestSize.all {keys : List Key} {i n : ℕ} (best : BestSize keys i n)
    (le : i ≤ maxbits + 1) (rest : intKeys maxasize keys ≤ 2 ^ i / 2)
    : BestSize keys (maxbits + 1) n := by
  refine ⟨best.dense.imp_right ?_, fun lg below dense => ?_⟩
  · intro holds
    obtain ⟨lg, below, same, dense⟩ := holds
    exact ⟨lg, by omega, same, dense⟩
  · by_cases before : lg < i
    · exact best.best lg before dense
    · have few := intKeys_mono (pow_le_maxasize (Nat.le_of_lt_succ below)) keys
      have later : 2 ^ i / 2 ≤ 2 ^ lg / 2 :=
        Nat.div_le_div_right (Nat.pow_le_pow_right Nat.two_pos (by omega))
      rw [Dense] at dense
      omega

/-- The loop of `computesizes`, by induction on the slices left. -/
theorem Counts.computesizesFrom_spec {nums : ℕ → ℕ} {keys : List Key}
    (counts : Counts nums keys) (nodup : keys.Nodup)
    : ∀ {slices i na n : ℕ}, i + slices = maxbits + 1 → BestSize keys i n
      → na = intKeys n keys
      → BestSize keys (maxbits + 1)
          (computesizesFrom nums (intKeys maxasize keys) slices i
            (intKeys (2 ^ i / 2) keys) na n).1
        ∧ (computesizesFrom nums (intKeys maxasize keys) slices i
            (intKeys (2 ^ i / 2) keys) na n).2
          = intKeys (computesizesFrom nums (intKeys maxasize keys) slices i
              (intKeys (2 ^ i / 2) keys) na n).1 keys := by
  intro slices
  induction slices with
  | zero =>
      intro i na n bound best counted
      exact ⟨bound ▸ best, counted⟩
  | succ slices ih =>
      intro i na n bound best counted
      have inside : i ≤ maxbits := by omega
      have next : intKeys (2 ^ (i + 1) / 2) keys = intKeys (2 ^ i) keys := by
        rw [half_pow_succ]
      have split := counts.before_succ inside
      have before := intKeys_le nodup (2 ^ i / 2)
      -- A slice without a key cannot have become dense.
      have dense : (0 < nums i ∧ 2 ^ i / 2 < intKeys (2 ^ i) keys) ↔ Dense keys i := by
        rw [Dense]
        omega
      -- Once all keys are counted, no later slice is dense.
      have all : ∀ {n}, intKeys (2 ^ i) keys = intKeys maxasize keys → BestSize keys (i + 1) n
          → BestSize keys (maxbits + 1) n := by
        intro n done best
        refine best.all (by omega) ?_
        rw [← done, half_pow_succ]
        exact intKeys_le nodup _
      rw [computesizesFrom]
      split_ifs with more
      · simp only [split, dense]
        by_cases isDense : Dense keys i
        · rw [if_pos isDense]
          split_ifs with done
          · exact ⟨all done (best.succ.1 isDense), rfl⟩
          · rw [← next]
            exact ih (by omega) (best.succ.1 isDense) next
        · rw [if_neg isDense]
          split_ifs with done
          · exact ⟨all done (best.succ.2 isDense), counted⟩
          · rw [← next]
            exact ih (by omega) (best.succ.2 isDense) counted
      · exact ⟨best.all (by omega) (not_lt.mp more), counted⟩

/-- The size of the array part, and how many keys go there. -/
theorem Counts.computesizes_spec {nums : ℕ → ℕ} {keys : List Key} (counts : Counts nums keys)
    (nodup : keys.Nodup)
    : BestSize keys (maxbits + 1) (computesizes nums (intKeys maxasize keys)).1
      ∧ (computesizes nums (intKeys maxasize keys)).2
        = intKeys (computesizes nums (intKeys maxasize keys)).1 keys := by
  have start : BestSize keys 0 0 :=
    ⟨Or.inl rfl, fun lg below => absurd below (Nat.not_lt_zero lg)⟩
  have spec := counts.computesizesFrom_spec nodup (Nat.zero_add _) start (intKeys_zero keys).symm
  rwa [show 2 ^ 0 / 2 = 0 from rfl, intKeys_zero] at spec

end

-----------------------------------------------------------------------------------------
-- The counts of a table
-----------------------------------------------------------------------------------------

namespace Table

section

variable {Key Val : Type} {t : Table Key Val}

/-- The elements among the first places of the array part. -/
def occupied (t : Table Key Val) (places : ℕ) : ℕ :=
  (List.range places).countP fun i => (t.array i).isSome

theorem occupied_add (t : Table Key Val) (m more : ℕ)
    : t.occupied m + (List.range' (m + 1) more).countP (fun j => (t.array (j - 1)).isSome)
      = t.occupied (m + more) := by
  induction more with
  | zero => rfl
  | succ more ih =>
      have place : m + 1 + more - 1 = m + more := by omega
      rw [List.range'_1_concat, List.countP_append, ← Nat.add_assoc, ih, ← Nat.add_assoc,
        occupied, occupied, List.range_succ, List.countP_append]
      simp only [List.countP_singleton, place]

/-- The places beyond a bound do not count, by induction on the places. -/
theorem countP_range_lt (present : ℕ → Bool) (bound places : ℕ)
    : (List.range places).countP (fun i => present i && decide (i < bound))
      = (List.range (min bound places)).countP present := by
  induction places with
  | zero => simp
  | succ places ih =>
      rw [List.range_succ, List.countP_append, ih, List.countP_singleton]
      by_cases less : places < bound
      · rw [Nat.min_eq_right less.le, Nat.min_eq_right less, List.range_succ,
          List.countP_append, List.countP_singleton]
        simp [less]
      · rw [Nat.min_eq_left (not_lt.mp less), Nat.min_eq_left (by omega)]
        simp [less]

end

variable {Key Val : Type} [TableKey Key] {t : Table Key Val}

theorem Valid.intKeys_array (valid : t.Valid) (size : ℕ)
    : intKeys size ((t.vanishing 0).map Prod.fst) = t.occupied (min size t.sizearray) := by
  rw [intKeys, occupied, List.countP_map, vanishing, List.countP_filterMap, Nat.sub_zero,
    ← List.range_eq_range', ← countP_range_lt]
  refine List.countP_congr fun i member => ?_
  have index : arrayindex (number (i + 1) : Key) = i + 1 :=
    arrayindex_place ((List.mem_range.mp member).trans_le valid.size_le)
  rcases t.array i with _ | val
  · simp
  · simp only [Option.map_some, Option.getD_some, Function.comp_apply, InArray, index,
      Option.isSome_some, Bool.true_and, decide_eq_true_eq]
    omega

/-- The keys up to the end of the slices before one are not in it. -/
theorem not_inSlice {lg : ℕ} {key : Key} (before : InArray (2 ^ lg / 2) key)
    : ¬ InSlice lg key := by
  intro holds
  obtain ⟨inside, slice⟩ := holds
  rcases lg with _ | lg
  · exact not_inArray_zero key before
  · rw [half_pow_succ] at before
    have := (ceillog2_arrayindex inside).mpr before
    omega

theorem Valid.slice_beyond (valid : t.Valid) {lg : ℕ} (beyond : t.sizearray ≤ 2 ^ lg / 2)
    : ((t.vanishing 0).map Prod.fst).countP (fun key => InSlice lg key) = 0 := by
  refine List.countP_eq_zero.mpr fun key member => ?_
  obtain ⟨⟨_, val⟩, element, rfl⟩ := List.mem_map.mp member
  rw [decide_eq_true_eq]
  exact not_inSlice (inArray_mono beyond (valid.mem_vanishing.mp element).1)

/-- The loop of `numusearray`, by induction on the slices left: it adds the keys of each slice
to its counter.
-/
theorem Valid.numusearrayFrom_spec (valid : t.Valid)
    : ∀ {slices lg ause : ℕ} {nums : ℕ → ℕ}, lg + slices = maxbits + 1
      → (∀ l, (t.numusearrayFrom slices lg (min (2 ^ lg / 2) t.sizearray + 1) nums ause).1 l
          = nums l + if lg ≤ l
              then ((t.vanishing 0).map Prod.fst).countP fun key => InSlice l key else 0)
        ∧ (t.numusearrayFrom slices lg (min (2 ^ lg / 2) t.sizearray + 1) nums ause).2
            + t.occupied (min (2 ^ lg / 2) t.sizearray)
          = ause + t.occupied t.sizearray := by
  -- Beyond the array part nothing is left to count.
  have done {lg : ℕ} (beyond : t.sizearray ≤ 2 ^ lg / 2) (nums : ℕ → ℕ) (l : ℕ)
      : nums l = nums l + if lg ≤ l
          then ((t.vanishing 0).map Prod.fst).countP fun key => InSlice l key else 0 := by
    split_ifs with le
    · have later : 2 ^ lg / 2 ≤ 2 ^ l / 2 :=
        Nat.div_le_div_right (Nat.pow_le_pow_right Nat.two_pos le)
      rw [valid.slice_beyond (beyond.trans later), Nat.add_zero]
    · rfl
  intro slices
  induction slices with
  | zero =>
      intro lg ause nums bound
      have beyond : t.sizearray ≤ 2 ^ lg / 2 := by
        have last : lg = maxbits + 1 := bound
        rw [last, half_pow_succ]
        exact valid.size_le
      rw [numusearrayFrom, Nat.min_eq_right beyond]
      exact ⟨done beyond nums, rfl⟩
  | succ slices ih =>
      intro lg ause nums bound
      rw [numusearrayFrom]
      dsimp only
      split_ifs with stop
      · have beyond : t.sizearray ≤ 2 ^ lg / 2 := by omega
        rw [Nat.min_eq_right beyond]
        exact ⟨done beyond nums, rfl⟩
      · have half : 2 ^ lg / 2 ≤ 2 ^ lg := Nat.div_le_self _ _
        have split := (counts_slices ((t.vanishing 0).map Prod.fst)).before_succ
          (show lg ≤ maxbits by omega)
        rw [valid.intKeys_array, valid.intKeys_array] at split
        have lim : min (2 ^ lg / 2) t.sizearray
            + (min (2 ^ lg) t.sizearray - min (2 ^ lg / 2) t.sizearray)
            = min (2 ^ lg) t.sizearray := by omega
        have counted := t.occupied_add (min (2 ^ lg / 2) t.sizearray)
          (min (2 ^ lg) t.sizearray - min (2 ^ lg / 2) t.sizearray)
        rw [lim, ← split, Nat.add_left_cancel_iff] at counted
        have next : max (min (2 ^ lg / 2) t.sizearray + 1) (min (2 ^ lg) t.sizearray + 1)
            = min (2 ^ (lg + 1) / 2) t.sizearray + 1 := by
          rw [half_pow_succ]
          omega
        rw [Nat.add_sub_add_right, counted, next]
        obtain ⟨nums', ause'⟩ := ih (show lg + 1 + slices = maxbits + 1 by omega)
        refine ⟨fun l => ?_, ?_⟩
        · rw [nums']
          by_cases here : l = lg
          · subst here
            rw [Function.update_self, if_neg (by omega), if_pos le_rfl, Nat.add_zero]
          · rw [Function.update_of_ne here]
            congr 1
            split_ifs <;> first | rfl | omega
        · rw [half_pow_succ] at ause' ⊢
          omega

theorem Valid.numusearray_spec (valid : t.Valid)
    : Counts (t.numusearray fun _ => 0).1 ((t.vanishing 0).map Prod.fst)
      ∧ (t.numusearray fun _ => 0).2 = ((t.vanishing 0).map Prod.fst).length
      ∧ (t.numusearray fun _ => 0).2 = intKeys maxasize ((t.vanishing 0).map Prod.fst) := by
  have start : min (2 ^ 0 / 2) t.sizearray + 1 = 1 := by simp
  obtain ⟨nums, ause⟩
      : (∀ l, (t.numusearray fun _ => 0).1 l
          = 0 + if 0 ≤ l
              then ((t.vanishing 0).map Prod.fst).countP fun key => InSlice l key else 0)
        ∧ (t.numusearray fun _ => 0).2 + t.occupied (min (2 ^ 0 / 2) t.sizearray)
          = 0 + t.occupied t.sizearray := by
    rw [numusearray, ← start]
    exact valid.numusearrayFrom_spec (Nat.zero_add _)
  have all (key : Key) (member : key ∈ (t.vanishing 0).map Prod.fst)
      : InArray t.sizearray key := by
    obtain ⟨⟨_, val⟩, element, rfl⟩ := List.mem_map.mp member
    exact (valid.mem_vanishing.mp element).1
  have used : (t.numusearray fun _ => 0).2 = t.occupied (min maxasize t.sizearray) := by
    rw [Nat.min_eq_right valid.size_le]
    simpa [occupied] using ause
  refine ⟨fun lg => ?_, ?_, used.trans (valid.intKeys_array maxasize).symm⟩
  · rw [nums, if_pos (Nat.zero_le lg), Nat.zero_add]
  · rw [used, ← valid.intKeys_array, intKeys, List.countP_eq_length]
    exact fun key member => decide_eq_true (inArray_mono valid.size_le (all key member))

/-- The fold of `numusehash`, by induction on the elements. -/
theorem numusehash_fold (elements : List (Key × Val))
    : ∀ {nums : ℕ → ℕ} {keys : List Key} (ause totaluse : ℕ), Counts nums keys
      → ∃ nums' ause', elements.foldl (fun (nums, ause, totaluse) element =>
            let (nums, counted) := countint element.1 nums
            (nums, ause + counted, totaluse + 1)) (nums, ause, totaluse)
          = (nums', ause', totaluse + elements.length)
        ∧ Counts nums' ((elements.map Prod.fst).reverse ++ keys)
        ∧ ause' + intKeys maxasize keys
          = ause + intKeys maxasize ((elements.map Prod.fst).reverse ++ keys) := by
  induction elements with
  | nil => exact fun ause totaluse counts => ⟨_, _, rfl, counts, rfl⟩
  | cons element rest ih =>
      intro nums keys ause totaluse counts
      obtain ⟨counts', counted⟩ := counts.countint element.1
      obtain ⟨nums', ause', folded, counts'', added⟩ :=
        ih (ause + (countint element.1 nums).2) (totaluse + 1) counts'
      refine ⟨nums', ause', ?_, ?_, ?_⟩
      · rw [List.foldl_cons, folded, List.length_cons, Nat.add_right_comm, Nat.add_assoc]
      · simpa using counts''
      · simp only [List.map_cons, List.reverse_cons, List.append_assoc, List.singleton_append]
        omega

theorem numusehash_spec (t : Table Key Val) {nums : ℕ → ℕ} {keys : List Key}
    (counts : Counts nums keys)
    : ∃ nums' ause', t.numusehash nums = (nums', ause', t.hashElements.length)
        ∧ Counts nums' ((t.hashElements.map Prod.fst).reverse ++ keys)
        ∧ ause' + intKeys maxasize keys
          = intKeys maxasize ((t.hashElements.map Prod.fst).reverse ++ keys) := by
  obtain ⟨nums', ause', folded, counts', added⟩ := numusehash_fold t.hashElements 0 0 counts
  rw [Nat.zero_add] at folded added
  exact ⟨nums', ause', folded, counts', added⟩

end Table

end Labrea.LuaTable
