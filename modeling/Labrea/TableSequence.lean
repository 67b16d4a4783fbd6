import Labrea.TableBoundary

/-! A table filled by `table.insert` alone keeps its elements in its array part, so that a
traversal goes through them in the order they were inserted in, those inserted meanwhile included.
-/

namespace Labrea.LuaTable

open TableKey (toInt number)

namespace Table

variable {Key Val : Type} [TableKey Key] [DecidableEq Key] {t : Table Key Val} {items : List Val}

/-- The table is a list: its elements are at 1, 2 and so on, all of them in its array part. -/
structure Sequence (t : Table Key Val) (items : List Val) : Prop where
  valid : t.Valid
  dummy : t.dummy
  fits : items.length ≤ t.sizearray
  array : ∀ i, t.array i = items[i]?

theorem Valid.lookup_array (valid : t.Valid) {i : ℕ} (below : i < t.sizearray)
    : t.lookup (number (i + 1)) = t.array i := by
  have index : arrayindex (number (i + 1) : Key) = i + 1 :=
    arrayindex_place (below.trans_le valid.size_le)
  have found : t.luaHGet (number (i + 1)) = some (.array i) := by
    refine luaHGet_array.mpr ⟨⟨?_, ?_⟩, ?_⟩ <;> rw [index] <;> omega
  rw [lookup, found]
  rfl

/-- The keys with a value are the indices of the list. -/
theorem Sequence.lookup_eq_some (sequence : t.Sequence items) {key : Key} {val : Val}
    : t.lookup key = some val ↔ ∃ i : ℕ, items[i]? = some val ∧ key = number (i + 1 : ℤ) := by
  rw [sequence.valid.lookup_eq_some]
  constructor
  · intro holds
    rcases holds with ⟨inside, present⟩ | ⟨i, found, _⟩
    · obtain ⟨i, below, index, same⟩ := inside.place
      have place : (arrayindex key - 1).toNat = i := by omega
      rw [place, sequence.array] at present
      exact ⟨i, present, same⟩
    · rw [(sequence.valid.unused sequence.dummy).2 i] at found
      cases found
  · intro holds
    obtain ⟨i, present, rfl⟩ := holds
    obtain ⟨below, _⟩ := List.getElem?_eq_some_iff.mp present
    rw [← sequence.valid.lookup_eq_some,
      sequence.valid.lookup_array (below.trans_le sequence.fits), sequence.array]
    exact present

omit [TableKey Key] [DecidableEq Key] in
theorem filterMap_range (items : List Val) (n : ℕ)
    : (List.range n).filterMap (fun i => items[i]?) = items.take n := by
  induction n with
  | zero => simp
  | succ n ih =>
      rw [List.range_succ, List.filterMap_append, ih, List.take_add_one]
      rcases here : items[n]? with _ | item <;> simp [here]

omit [DecidableEq Key] in
theorem Sequence.values (sequence : t.Sequence items) : (t.vanishing 0).map Prod.snd = items := by
  have values (i : ℕ)
      : ((t.array i).map fun val => ((number (i + 1) : Key), val)).map Prod.snd = items[i]? := by
    rw [sequence.array, Option.map_map]
    exact Option.map_id'
  rw [vanishing, List.map_filterMap, Nat.sub_zero, ← List.range_eq_range']
  simp only [values]
  rw [filterMap_range, List.take_of_length_le sequence.fits]

theorem Sequence.presentNum (sequence : t.Sequence items) {n : ℕ} (positive : 0 < n)
    : t.presentNum n = decide (n ≤ items.length) := by
  by_cases inside : n ≤ t.sizearray
  · rw [presentNum_array positive inside, sequence.array, Bool.eq_iff_iff]
    simp only [isSome_getElem?, decide_eq_true_eq]
    omega
  · have beyond := sequence.fits
    rw [sequence.valid.presentNum_dummy sequence.dummy (not_le.mp inside), Bool.eq_iff_iff]
    simp only [Bool.false_eq_true, decide_eq_true_eq, false_iff]
    omega

/-- Its boundary is its length. -/
theorem Sequence.luaHGetn (sequence : t.Sequence items) : t.luaHGetn = items.length := by
  obtain ⟨⟨lower, upper⟩, _⟩ := sequence.valid.luaHGetn_boundary
  rw [sequence.presentNum (Nat.succ_pos _), decide_eq_false_iff_not] at upper
  rcases Nat.eq_zero_or_pos t.luaHGetn with zero | positive
  · omega
  · have present := lower.resolve_left positive.ne'
    rw [sequence.presentNum positive, decide_eq_true_eq] at present
    omega

/-- A table from an empty constructor is the empty list. -/
theorem luaHNew_sequence
    : ∃ t : Table Key Val, luaHNew 0 0 = .ok t ∧ t.Sequence [] := by
  have made : luaHNew 0 0 = .ok ((⟨0, fun _ => none, 0, true, fun _ => .empty, 0⟩
      : Table Key Val).setarrayvector 0) := rfl
  refine ⟨_, made, (Made.new (Nat.zero_le _) made).valid, rfl, Nat.le_refl 0, fun i => ?_⟩
  simp [setarrayvector]

/-- The next element of a list with a place for it. -/
theorem Sequence.write_next (sequence : t.Sequence items) (room : items.length < t.sizearray)
    (val : Val)
    : (t.write (.array items.length) (some val)).Sequence (items ++ [val]) := by
  have index : arrayindex (number (items.length + 1) : Key) = items.length + 1 :=
    arrayindex_place (room.trans_le sequence.valid.size_le)
  have has : t.Has (.array items.length) := by
    refine ⟨number (items.length + 1), luaHGet_array.mpr ⟨⟨?_, ?_⟩, ?_⟩⟩ <;> rw [index] <;> omega
  refine ⟨sequence.valid.write has _, sequence.dummy, ?_, fun i => ?_⟩
  · rw [List.length_append]
    exact room
  · change Function.update t.array items.length (some val) i = _
    by_cases last : i = items.length
    · subst last
      simp
    · rw [Function.update_of_ne last, sequence.array, List.getElem?_append]
      split_ifs with below
      · rfl
      · rw [List.getElem?_eq_none (by omega), List.getElem?_eq_none (by simp; omega)]

theorem Sequence.inArray (sequence : t.Sequence items) (bound : items.length ≤ maxasize)
    {key : Key} (member : key ∈ t.keys)
    : InArray items.length key := by
  obtain ⟨val, present⟩ := sequence.valid.mem_keys.mp member
  obtain ⟨i, found, rfl⟩ := sequence.lookup_eq_some.mp present
  have below := (List.getElem?_eq_some_iff.mp found).1
  have index : arrayindex (number (i + 1) : Key) = i + 1 :=
    arrayindex_place (below.trans_le bound)
  rw [InArray, index]
  omega

theorem Sequence.length_keys (sequence : t.Sequence items) (bound : items.length < maxasize)
    : t.keys.length = items.length := by
  refine Nat.le_antisymm ?_ ?_
  · have all : intKeys items.length t.keys = t.keys.length :=
      List.countP_eq_length.mpr fun key member =>
        decide_eq_true (sequence.inArray bound.le member)
    rw [← all]
    exact intKeys_le sequence.valid.nodup_keys _
  · refine sequence.valid.le_length_keys (bound.trans (by decide)) fun n positive le => ?_
    rw [sequence.presentNum positive]
    exact decide_eq_true le

/-- A list whose places are all taken is rehashed with a place for one more element. -/
theorem Sequence.rehashed (sequence : t.Sequence items) (bound : items.length < maxasize)
    {later : Table Key Val} {slot : Slot}
    (rehashed : t.Rehashed later (number (items.length + 1)) slot)
    : later.Sequence items ∧ items.length < later.sizearray := by
  have positive : 0 < items.length + 1 := Nat.succ_pos _
  have small : items.length + 1 ≤ 2 ^ 32 :=
    (Nat.succ_le_of_lt bound).trans (Nat.pow_le_pow_right Nat.two_pos (by decide))
  have inside : ∀ key ∈ number (items.length + 1) :: t.keys, InArray (items.length + 1) key := by
    intro key member
    rcases List.mem_cons.mp member with rfl | member
    · have index : arrayindex (number (items.length + 1) : Key) = items.length + 1 :=
        arrayindex_place bound
      rw [InArray, index]
      omega
    · exact inArray_mono (Nat.le_succ _) (sequence.inArray bound.le member)
  -- The slice that the new element is in is dense, so that the array part reaches its end.
  have reaches : items.length + 1 ≤ 2 ^ ceillog2 (items.length + 1) :=
    (ceillog2_le_iff positive small).mp le_rfl
  have half : 2 ^ ceillog2 (items.length + 1) / 2 < items.length + 1 := by
    rcases exponent : ceillog2 (items.length + 1) with _ | lg
    · exact positive
    · rw [half_pow_succ, ← not_le, ← ceillog2_le_iff positive small, exponent]
      omega
  have dense : Dense (number (items.length + 1) :: t.keys) (ceillog2 (items.length + 1)) := by
    have all := List.countP_eq_length.mpr fun key member =>
      decide_eq_true (inArray_mono reaches (inside key member))
    rw [Dense, intKeys, all, List.length_cons, sequence.length_keys bound]
    exact half
  have within : ceillog2 (items.length + 1) < maxbits + 1 :=
    Nat.lt_succ_of_le ((ceillog2_le_iff positive small).mpr bound)
  have room : items.length < later.sizearray :=
    Nat.lt_of_lt_of_le reaches (rehashed.best.best _ within dense)
  have none : hashKeys later.sizearray (number (items.length + 1) :: t.keys) = 0 := by
    refine List.countP_eq_zero.mpr fun key member => ?_
    simpa using inArray_mono room (inside key member)
  refine ⟨⟨rehashed.valid, rehashed.dummy none, room.le, fun i => ?_⟩, room⟩
  by_cases below : i < later.sizearray
  · rw [← rehashed.valid.lookup_array below, rehashed.lookup]
    refine Option.ext fun val => ?_
    rw [sequence.lookup_eq_some]
    constructor
    · intro holds
      obtain ⟨j, present, same⟩ := holds
      have other := (List.getElem?_eq_some_iff.mp present).1.trans bound
      have index := congrArg arrayindex same
      rw [arrayindex_place (below.trans_le rehashed.valid.size_le), arrayindex_place other,
        Int.add_left_inj, Int.natCast_inj] at index
      rwa [index]
    · exact fun present => ⟨i, present, rfl⟩
  · rw [rehashed.valid.bounded i (not_lt.mp below), List.getElem?_eq_none (by omega)]

/-- `table.insert` puts an element behind the others. -/
theorem Sequence.tinsert (sequence : t.Sequence items) (bound : items.length < maxasize)
    (val : Val)
    : ∃ later, t.tinsert val = .ok later ∧ later.Sequence (items ++ [val]) := by
  have index : arrayindex (number (items.length + 1) : Key) = items.length + 1 :=
    arrayindex_place bound
  have key_slot {table : Table Key Val} {slot : Slot}
      (found : table.luaHGet (number (items.length + 1)) = some slot)
      (room : items.length < table.sizearray)
      : slot = .array items.length := by
    have place : table.luaHGet (number (items.length + 1)) = some (.array items.length) := by
      refine luaHGet_array.mpr ⟨⟨?_, ?_⟩, ?_⟩ <;> rw [index] <;> omega
    exact Option.some.inj (found.symm.trans place)
  rw [Table.tinsert, sequence.luaHGetn, assign]
  rcases sequence.valid.luaHSet_cases (number (items.length + 1)) with
    ⟨slot, found, set⟩ | ⟨_, notDummy, _⟩ | ⟨_, later, slot, set, rehashed⟩ | ⟨large, _⟩
  · have room : items.length < t.sizearray := by
      cases slot with
      | array i =>
          have := (luaHGet_array.mp found).1.2
          omega
      | node i =>
          have := sequence.valid.luaHGet_node.mp found
          rw [(sequence.valid.unused sequence.dummy).2 i] at this
          cases this
    cases key_slot found room
    refine ⟨_, ?_, sequence.write_next room val⟩
    rw [set]
    rfl
  · rw [sequence.dummy] at notDummy
    cases notDummy
  · obtain ⟨moved, room⟩ := sequence.rehashed bound rehashed
    cases key_slot rehashed.found room
    refine ⟨_, ?_, moved.write_next room val⟩
    rw [set]
    rfl
  · have few := sequence.length_keys bound
    exact absurd large (not_le.mpr (few ▸ bound))

/-- Elements inserted in turn, by induction on them. -/
theorem Sequence.foldlM_tinsert (sequence : t.Sequence items) (vals : List Val)
    (bound : items.length + vals.length ≤ maxasize)
    : ∃ later,
        vals.foldlM Table.tinsert t = .ok later
        ∧ later.Sequence (items ++ vals) := by
  induction vals generalizing t items with
  | nil => exact ⟨t, rfl, by rwa [List.append_nil]⟩
  | cons val rest ih =>
      rw [List.length_cons] at bound
      obtain ⟨next, inserted, sequence⟩ := sequence.tinsert (by omega) val
      obtain ⟨later, run, sequence⟩ := ih sequence (by simp; omega)
      refine ⟨later, ?_, by simpa using sequence⟩
      rw [List.foldlM_cons, inserted]
      exact run

theorem Sequence.cursor (sequence : t.Sequence items) {i : ℕ} (below : i < items.length)
    : t.Cursor (some (number (i + 1))) (i + 1) := by
  have inside : i < t.sizearray := below.trans_le sequence.fits
  have index : arrayindex (number (i + 1) : Key) = i + 1 :=
    arrayindex_place (inside.trans_le sequence.valid.size_le)
  refine ⟨.array i, luaHGet_array.mpr ⟨⟨?_, ?_⟩, ?_⟩, rfl⟩ <;> rw [index] <;> omega

/-- A traversal goes from each element to the next one. -/
theorem Sequence.luaHNext (sequence : t.Sequence items) {control : Option Key} {i : ℕ}
    (cursor : t.Cursor control i)
    : t.luaHNext control = .ok (items[i]?.map fun item => (number (i + 1), item)) := by
  -- The keys with a value are in the order of their places.
  have place {key : Key} {slot : Slot} (found : t.luaHGet key = some slot)
      (present : (t.read slot).isSome)
      : slot.place t.sizearray < items.length ∧ key = number (slot.place t.sizearray + 1) := by
    obtain ⟨val, value⟩ := Option.isSome_iff_exists.mp present
    have lookup : t.lookup key = some val := by rw [lookup, found]; exact value
    obtain ⟨j, item, rfl⟩ := sequence.lookup_eq_some.mp lookup
    have below := (List.getElem?_eq_some_iff.mp item).1
    obtain ⟨slot', found', same⟩ := sequence.cursor below
    cases found.symm.trans found'
    have index : slot.place t.sizearray = j := by omega
    rw [index]
    exact ⟨below, rfl⟩
  have here (below : i < items.length)
      : ∃ slot, t.luaHGet (number (i + 1)) = some slot ∧ slot.place t.sizearray = i
          ∧ (t.read slot).isSome := by
    obtain ⟨slot, found, same⟩ := sequence.cursor below
    have present : (t.lookup (number (i + 1))).isSome := by
      rw [sequence.valid.lookup_array (below.trans_le sequence.fits), sequence.array]
      simpa using below
    obtain ⟨slot', found', value⟩ := isSome_lookup.mp present
    cases found.symm.trans found'
    exact ⟨slot, found, by omega, value⟩
  rcases sequence.valid.luaHNext_spec cursor with
    ⟨key, val, slot, next, found, value, le, before⟩ | ⟨done, before⟩
  · obtain ⟨below, rfl⟩ := place found (by simp [value])
    have first : slot.place t.sizearray = i := by
      by_contra apart
      obtain ⟨slot', found', same, present⟩ := here (by omega)
      have := before _ slot' found' present (by omega)
      omega
    rw [first] at found next below
    have lookup : t.lookup (number (i + 1)) = some val := by rw [lookup, found]; exact value
    rw [sequence.valid.lookup_array (below.trans_le sequence.fits), sequence.array] at lookup
    rw [next, lookup]
    rfl
  · have last : ¬ i < items.length := by
      intro below
      obtain ⟨slot', found', same, present⟩ := here below
      have := before _ slot' found' present
      omega
    rw [done, List.getElem?_eq_none (not_lt.mp last)]
    rfl

end Table

end Labrea.LuaTable
