import Labrea.TableInvariant

/-! The elements of a table, as `resize` takes them out of one. -/

namespace Labrea.LuaTable

open TableKey (toInt number)

variable {Key Val : Type} [TableKey Key]

theorem maxasize_eq : maxasize = 67108864 :=
  rfl

theorem not_inArray_zero (key : Key) : ¬ InArray 0 key := by
  intro holds
  obtain ⟨positive, le⟩ := holds
  omega

/-- The key of a place in an array part. -/
theorem arrayindex_place {i : ℕ} (bound : i < maxasize)
    : arrayindex (number (i + 1) : Key) = i + 1 := by
  rw [maxasize_eq] at bound
  exact arrayindex_number (by omega) (by omega)

theorem InArray.place {size : ℕ} {key : Key} (inside : InArray size key)
    : ∃ i : ℕ, i < size ∧ arrayindex key = i + 1 ∧ key = number (i + 1 : ℤ) := by
  obtain ⟨positive, le⟩ := inside
  have index : arrayindex key = ((arrayindex key - 1).toNat : ℤ) + 1 := by omega
  refine ⟨(arrayindex key - 1).toNat, by omega, index, ?_⟩
  rw [← index]
  exact (number_arrayindex positive).symm

omit [TableKey Key] in
theorem Node.element_eq_some {node : Node Key Val} {key : Key} {val : Val}
    : node.element = some (key, val) ↔ node.key = some key ∧ node.val = some val := by
  rw [element]
  rcases node.key with _ | key' <;> rcases node.val with _ | val' <;> simp

namespace Table

variable {t : Table Key Val}

omit [TableKey Key] in
theorem mem_hashElements {key : Key} {val : Val}
    : (key, val) ∈ t.hashElements
      ↔ ∃ i < t.sizenode, (t.node i).key = some key ∧ (t.node i).val = some val := by
  rw [hashElements, List.mem_filterMap]
  simp only [List.mem_reverse, List.mem_range]
  exact exists_congr fun i => and_congr_right fun _ => Node.element_eq_some

theorem Valid.mem_hashElements (valid : t.Valid) {key : Key} {val : Val}
    : (key, val) ∈ t.hashElements
      ↔ ∃ i, (t.node i).key = some key ∧ (t.node i).val = some val := by
  rw [Table.mem_hashElements]
  refine exists_congr fun i => and_iff_right_of_imp fun ⟨found, _⟩ => ?_
  exact valid.inside i (by simp [found])

theorem Valid.mem_vanishing (valid : t.Valid) {nasize : ℕ} {key : Key} {val : Val}
    : (key, val) ∈ t.vanishing nasize
      ↔ InArray t.sizearray key ∧ ¬ InArray nasize key
        ∧ t.array (arrayindex key - 1).toNat = some val := by
  rw [vanishing, List.mem_filterMap]
  simp only [List.mem_range'_1, Option.map_eq_some_iff, Prod.mk.injEq]
  constructor
  · intro holds
    obtain ⟨i, ⟨above, below⟩, _, found, rfl, rfl⟩ := holds
    have index : arrayindex (number (i + 1) : Key) = i + 1 :=
      arrayindex_place (by have := valid.size_le; omega)
    rw [InArray, InArray, index]
    have place : ((i : ℤ) + 1 - 1).toNat = i := by omega
    rw [place]
    exact ⟨by omega, by omega, found⟩
  · intro holds
    obtain ⟨inside, outside, found⟩ := holds
    obtain ⟨i, below, index, same⟩ := inside.place
    rw [InArray, index] at outside
    have place : (arrayindex key - 1).toNat = i := by omega
    exact ⟨i, by omega, val, place ▸ found, same.symm, rfl⟩

/-- The elements of both parts. -/
def elements (t : Table Key Val) : List (Key × Val) :=
  t.vanishing 0 ++ t.hashElements

/-- The keys that have a value. -/
def keys (t : Table Key Val) : List Key :=
  t.elements.map Prod.fst

theorem Valid.mem_elements [DecidableEq Key] (valid : t.Valid) {key : Key} {val : Val}
    : (key, val) ∈ t.elements ↔ t.lookup key = some val := by
  rw [elements, List.mem_append, valid.mem_vanishing, valid.mem_hashElements,
    valid.lookup_eq_some]
  simp only [not_inArray_zero, not_false_eq_true, true_and]

theorem Valid.mem_keys [DecidableEq Key] (valid : t.Valid) {key : Key}
    : key ∈ t.keys ↔ ∃ val, t.lookup key = some val := by
  simp only [keys, List.mem_map, Prod.exists, exists_and_right, exists_eq_right,
    valid.mem_elements]

/-- No key has two elements in what leaves the array part. -/
theorem Valid.nodup_vanishing (valid : t.Valid) (nasize : ℕ)
    : ((t.vanishing nasize).map Prod.fst).Nodup := by
  have index {i : ℕ} {key : Key}
      (found : ((t.array i).map fun val => ((number (i + 1) : Key), val)).map Prod.fst = some key)
      : arrayindex key = i + 1 := by
    simp only [Option.map_map, Option.map_eq_some_iff, Function.comp_apply] at found
    obtain ⟨val, found, rfl⟩ := found
    refine arrayindex_place (lt_of_not_ge fun outside => ?_)
    simp [valid.bounded i (valid.size_le.trans outside)] at found
  rw [vanishing, List.map_filterMap]
  refine List.Nodup.filterMap (fun i j key first second => ?_) List.nodup_range'
  have := index first
  have := index second
  omega

theorem Valid.nodup_hashElements (valid : t.Valid) : (t.hashElements.map Prod.fst).Nodup := by
  have found {i : ℕ} {key : Key} (found : (t.node i).element.map Prod.fst = some key)
      : (t.node i).key = some key := by
    obtain ⟨⟨_, val⟩, element, rfl⟩ := Option.map_eq_some_iff.mp found
    exact (Node.element_eq_some.mp element).1
  rw [hashElements, List.map_filterMap]
  refine List.Nodup.filterMap (fun i j key first second => ?_)
    (List.nodup_reverse.mpr List.nodup_range)
  exact valid.distinct i j key (found first) (found second)

/-- Every key has at most one element. -/
theorem Valid.nodup_keys (valid : t.Valid) : t.keys.Nodup := by
  rw [keys, elements, List.map_append]
  refine (valid.nodup_vanishing 0).append valid.nodup_hashElements fun key first second => ?_
  obtain ⟨⟨_, val⟩, inArray, rfl⟩ := List.mem_map.mp first
  obtain ⟨⟨_, val'⟩, inHash, same⟩ := List.mem_map.mp second
  cases same
  obtain ⟨i, found, _⟩ := valid.mem_hashElements.mp inHash
  exact valid.apart i _ found (valid.mem_vanishing.mp inArray).1

end Table

end Labrea.LuaTable
