import Mathlib.Data.Set.Card
import Labrea.TableSizes

/-! A rehash makes room for all the elements of a table and one more, so that inserting them again
never asks for another rehash: an assignment changes the value under its key, and no other.
-/

namespace Labrea.LuaTable

open TableKey (toInt number)
open Table (countint computesizes)

variable {Key Val : Type} [TableKey Key]

-----------------------------------------------------------------------------------------
-- The sizes of a rehash
-----------------------------------------------------------------------------------------

/-- The number of keys without a place in an array part of a size. -/
def hashKeys (size : ℕ) (keys : List Key) : ℕ :=
  keys.countP fun key => ¬ InArray size key

theorem intKeys_add_hashKeys (size : ℕ) (keys : List Key)
    : intKeys size keys + hashKeys size keys = keys.length := by
  rw [List.length_eq_countP_add_countP fun key => decide (InArray size key), intKeys, hashKeys]
  simp

theorem hashKeys_cons (size : ℕ) (key : Key) (keys : List Key)
    : hashKeys size (key :: keys)
      = hashKeys size keys + if InArray size key then 0 else 1 := by
  rw [hashKeys, hashKeys, List.countP_cons]
  split_ifs <;> simp_all

theorem intKeys_perm {keys others : List Key} (same : keys.Perm others) (size : ℕ)
    : intKeys size keys = intKeys size others :=
  same.countP_eq _

theorem BestSize.perm {keys others : List Key} {slices n : ℕ} (best : BestSize keys slices n)
    (same : keys.Perm others)
    : BestSize others slices n := by
  have dense (lg : ℕ) : Dense others lg ↔ Dense keys lg := by
    rw [Dense, Dense, intKeys_perm same]
  exact ⟨by simpa only [dense] using best.dense, by simpa only [dense] using best.best⟩

namespace Table

variable {t : Table Key Val}

/-- A rehash takes the best size for the array part, and room in the hash part for the keys
that have no place there.
-/
theorem Valid.rehash_eq (valid : t.Valid) (set : Setter Key Val) {ek : Key}
    (fresh : ek ∉ t.keys)
    : ∃ n, BestSize (ek :: t.keys) (maxbits + 1) n
      ∧ t.rehash set ek = t.resize set n (hashKeys n (ek :: t.keys)) := by
  obtain ⟨arrayCounts, arrayUse, arrayInts⟩ := valid.numusearray_spec
  obtain ⟨nums, ause, hash, hashCounts, hashInts⟩ := t.numusehash_spec arrayCounts
  obtain ⟨counts, extra⟩ := hashCounts.countint ek
  have same : (ek :: ((t.hashElements.map Prod.fst).reverse
      ++ (t.vanishing 0).map Prod.fst)).Perm (ek :: t.keys) := by
    rw [keys, elements, List.map_append]
    exact (((List.reverse_perm _).append_right _).trans List.perm_append_comm).cons ek
  have nodup := same.nodup_iff.mpr (List.nodup_cons.mpr ⟨fresh, valid.nodup_keys⟩)
  obtain ⟨best, counted⟩ := counts.computesizes_spec nodup
  rw [intKeys_perm same] at best extra
  rw [intKeys_perm same, intKeys_perm same] at counted
  have narray : (t.numusearray fun _ => 0).2 + ause + (countint ek nums).2
      = intKeys maxasize (ek :: t.keys) := by
    omega
  refine ⟨_, best.perm same, ?_⟩
  have total := intKeys_add_hashKeys
    (computesizes (countint ek nums).1 (intKeys maxasize (ek :: t.keys))).1 (ek :: t.keys)
  have length : (ek :: t.keys).length
      = (t.numusearray fun _ => 0).2 + t.hashElements.length + 1 := by
    rw [arrayUse, List.length_cons, keys, elements, List.length_map, List.length_append,
      List.length_map]
  rw [rehash]
  rcases array : t.numusearray fun _ => 0 with ⟨arrayNums, nasize⟩
  rw [array] at hash length narray
  simp only [hash, narray]
  congr 1
  omega

-----------------------------------------------------------------------------------------
-- Emptying
-----------------------------------------------------------------------------------------

/-- The table with another size of the array part, and an empty hash part for some keys. -/
def emptied (t : Table Key Val) (nasize nhsize : ℕ) : Table Key Val where
  sizearray := nasize
  array := fun i => if i < nasize then t.array i else none
  lsizenode := if nhsize = 0 then 0 else ceillog2 nhsize
  dummy := decide (nhsize = 0)
  node := fun _ => .empty
  lastfree := if nhsize = 0 then 0 else 2 ^ ceillog2 nhsize

/-- More keys than a hash part can have. -/
def Overflows (nhsize : ℕ) : Prop :=
  nhsize ≠ 0 ∧ maxbits < ceillog2 nhsize

theorem overflows_iff {nhsize : ℕ} (bound : nhsize ≤ 2 ^ 32)
    : Overflows nhsize ↔ 2 ^ maxbits < nhsize := by
  rw [Overflows]
  by_cases none : nhsize = 0
  · simp [none]
  · rw [← Nat.not_le, ceillog2_le_iff (Nat.pos_of_ne_zero none) bound, Nat.not_le]
    exact and_iff_right none

omit [TableKey Key] in
theorem setnodevector_eq (t : Table Key Val) (nhsize : ℕ)
    : (Overflows nhsize ∧ t.setnodevector nhsize = .error .overflow)
      ∨ (¬ Overflows nhsize ∧ t.setnodevector nhsize = .ok { t with
          lsizenode := if nhsize = 0 then 0 else ceillog2 nhsize
          dummy := decide (nhsize = 0)
          node := fun _ => .empty
          lastfree := if nhsize = 0 then 0 else 2 ^ ceillog2 nhsize }) := by
  rw [setnodevector, Overflows]
  by_cases none : nhsize = 0
  · exact Or.inr ⟨by simp [none], by simp [none]⟩
  · by_cases large : maxbits < ceillog2 nhsize
    · exact Or.inl ⟨⟨none, large⟩, by simp [none, large]⟩
    · exact Or.inr ⟨by simp [large], by simp [none, large]⟩

theorem emptied_valid (t : Table Key Val) {nasize nhsize : ℕ} (le : nasize ≤ maxasize)
    (fits : ¬ Overflows nhsize)
    : (t.emptied nasize nhsize).Valid where
  linked := Chain.linked_none _
  vacant _ _ := rfl
  pointed _ _ linked := by cases linked
  inside _ some := absurd rfl some
  reached _ _ found := by cases found
  owned _ _ found := by cases found
  distinct _ _ _ found := by cases found
  apart _ _ found := by cases found
  full notDummy i above below := by
    have some : nhsize ≠ 0 := of_decide_eq_false notDummy
    simp only [Table.emptied, sizenode, if_neg some] at above below
    omega
  unused dummy := by
    have none : nhsize = 0 := of_decide_eq_true dummy
    simp [Table.emptied, none, Node.empty]
  scanned := by
    simp only [Table.emptied, sizenode]
    split_ifs <;> simp
  bounded i outside := if_neg (not_lt.mpr outside)
  size_le := le
  lsizenode_le := by
    simp only [Table.emptied]
    split_ifs with none
    · exact Nat.zero_le _
    · exact not_lt.mp fun large => fits ⟨none, large⟩

omit [TableKey Key] in
theorem room_emptied (t : Table Key Val) {nasize nhsize : ℕ} (bound : nhsize ≤ 2 ^ 32)
    : nhsize ≤ (t.emptied nasize nhsize).room := by
  by_cases none : nhsize = 0
  · simp [none]
  · have all : (t.emptied nasize nhsize).vacancies
        = Finset.range (2 ^ ceillog2 nhsize) := by
      rw [vacancies, sizenode, Table.emptied, if_neg none]
      exact Finset.filter_true_of_mem fun i _ => rfl
    rw [room, all, Finset.card_range, if_neg (by simp [Table.emptied, none])]
    exact (ceillog2_le_iff (Nat.pos_of_ne_zero none) bound).mp le_rfl

theorem lookup_emptied [DecidableEq Key] (t : Table Key Val) {nasize nhsize : ℕ}
    (key : Key)
    : (t.emptied nasize nhsize).lookup key
      = if InArray nasize key then t.array (arrayindex key - 1).toNat else none := by
  have size : (t.emptied nasize nhsize).sizearray = nasize := rfl
  rw [lookup, luaHGet_eq, size]
  split_ifs with inside
  · obtain ⟨i, below, index, _⟩ := inside.place
    exact if_pos (by omega)
  · have missing : (t.emptied nasize nhsize).chain key = none := by
      refine Option.eq_none_iff_forall_ne_some.mpr fun i found => ?_
      have := Chain.find_sound found
      simp [Table.emptied, Node.empty] at this
    rw [missing]
    rfl

/-- A resize empties the table, and puts its elements there again. -/
theorem Valid.resize_eq [DecidableEq Key] (valid : t.Valid) (set : Setter Key Val)
    (nasize nhsize : ℕ)
    : (Overflows nhsize ∧ t.resize set nasize nhsize = .error .overflow)
      ∨ (¬ Overflows nhsize ∧ t.resize set nasize nhsize
        = (t.vanishing nasize ++ t.hashElements).foldlM (put set) (t.emptied nasize nhsize)) := by
  rw [resize]
  rcases setnodevector_eq (if t.sizearray < nasize then t.setarrayvector nasize else t) nhsize with
    ⟨overflows, failed⟩ | ⟨fits, emptied⟩
  · exact Or.inl ⟨overflows, by rw [failed]; rfl⟩
  · refine Or.inr ⟨fits, ?_⟩
    have same : (let empty : Table Key Val :=
          { (if t.sizearray < nasize then t.setarrayvector nasize else t) with
            lsizenode := if nhsize = 0 then 0 else ceillog2 nhsize
            dummy := decide (nhsize = 0)
            node := fun _ => .empty
            lastfree := if nhsize = 0 then 0 else 2 ^ ceillog2 nhsize }
        if nasize < t.sizearray then empty.setarrayvector nasize else empty)
        = t.emptied nasize nhsize := by
      rcases lt_trichotomy t.sizearray nasize with grows | rfl | shrinks
      · have array : (t.setarrayvector nasize).array = (t.emptied nasize nhsize).array := by
          funext i
          by_cases inside : i < t.sizearray
          · simp [setarrayvector, Table.emptied, inside]
          · simp [setarrayvector, Table.emptied, inside, valid.bounded i (not_lt.mp inside)]
        simp only [if_pos grows, if_neg grows.not_gt, array]
        rfl
      · have array : t.array = (t.emptied t.sizearray nhsize).array := by
          funext i
          by_cases inside : i < t.sizearray
          · simp [Table.emptied, inside]
          · simp [Table.emptied, valid.bounded i (not_lt.mp inside)]
        simp only [lt_irrefl, if_false, array]
        rfl
      · have array (i : ℕ) : (if i < t.sizearray ∧ i < nasize then t.array i else none)
            = (t.emptied nasize nhsize).array i := by
          have inside : i < nasize → i < t.sizearray := fun below => below.trans shrinks
          simp only [Table.emptied, and_iff_right_of_imp inside]
        simp only [if_neg shrinks.not_gt, if_pos shrinks, setarrayvector, array]
        rfl
    rw [emptied, List.foldlM_append]
    exact congrArg (fun table => do
      let moved ← (t.vanishing nasize).foldlM (put set) table
      t.hashElements.foldlM (put set) moved) same

-----------------------------------------------------------------------------------------
-- Inserting with room
-----------------------------------------------------------------------------------------

variable [DecidableEq Key]

/-- A later table has the values of a table, and a slot for a key. -/
structure Provides (t later : Table Key Val) (key : Key) (slot : Slot) : Prop where
  valid : later.Valid
  found : later.luaHGet key = some slot
  lookup : later.lookup = t.lookup

theorem luaHSetWithin_found {depth : ℕ} {key : Key} {slot : Slot}
    (found : t.luaHGet key = some slot)
    : luaHSetWithin (depth + 1) t key = .ok (t, slot) := by
  simp only [luaHSetWithin, found]

theorem luaHSetWithin_missing {depth : ℕ} {key : Key} (absent : t.luaHGet key = none)
    : luaHSetWithin (depth + 1) t key
      = newkey (fun t key => do
          let grown ← t.rehash (luaHSetWithin depth) key
          luaHSetWithin depth grown key) t key := by
  simp only [luaHSetWithin, absent]

/-- With room for its key, an insertion asks for no rehash. -/
theorem Valid.insert_room (valid : t.Valid) (depth : ℕ) (key : Key)
    (space : InArray t.sizearray key ∨ 0 < t.room)
    : ∃ later slot,
        luaHSetWithin (depth + 1) t key = .ok (later, slot)
        ∧ t.Provides later key slot
        ∧ later.sizearray = t.sizearray
        ∧ (InArray t.sizearray key → later = t)
        ∧ t.room ≤ later.room + if InArray t.sizearray key then 0 else 1 := by
  rcases found : t.luaHGet key with _ | slot
  · have outside := (valid.luaHGet_eq_none.mp found).1
    rw [luaHSetWithin_missing found]
    rcases valid.newkey_cases found _ with ⟨_, later, i, made, makes⟩ | ⟨_, full, _⟩
    · refine ⟨later, _, made, ⟨makes.valid, makes.luaHGet, makes.lookup valid found⟩,
        makes.sizearray, fun inside => absurd inside outside, ?_⟩
      rw [if_neg outside]
      exact makes.room
    · exact absurd (space.resolve_left outside) (by omega)
  · exact ⟨t, slot, luaHSetWithin_found found, ⟨valid, found, rfl⟩, rfl, fun _ => rfl,
      Nat.le_add_right _ _⟩

omit [TableKey Key] [DecidableEq Key] in
theorem write_room (t : Table Key Val) (slot : Slot) (val : Option Val)
    : (t.write slot val).room = t.room := by
  obtain ⟨_, lsizenode, dummy, _⟩ := t.write_fields slot val
  simp only [room, vacancies, sizenode, lsizenode, dummy, write_key]

/-- Elements put into a table with room for them are its elements then, by induction on them. -/
theorem Valid.foldlM_put (depth : ℕ)
    : ∀ {elements : List (Key × Val)} {t : Table Key Val}, t.Valid
      → (elements.map Prod.fst).Nodup
      → hashKeys t.sizearray (elements.map Prod.fst) ≤ t.room
      → ∃ later,
          elements.foldlM (put (luaHSetWithin (depth + 1))) t = .ok later
          ∧ later.Valid
          ∧ later.sizearray = t.sizearray
          ∧ (hashKeys t.sizearray (elements.map Prod.fst) = 0 → later.dummy = t.dummy)
          ∧ t.room ≤ later.room + hashKeys t.sizearray (elements.map Prod.fst)
          ∧ (∀ key val, (key, val) ∈ elements → later.lookup key = some val)
          ∧ ∀ key, key ∉ elements.map Prod.fst → later.lookup key = t.lookup key := by
  intro elements
  induction elements with
  | nil =>
      intro t valid _ _
      exact ⟨t, rfl, valid, rfl, fun _ => rfl, Nat.le_add_right _ _, by simp, fun _ _ => rfl⟩
  | cons element rest ih =>
      intro t valid nodup space
      obtain ⟨key, val⟩ := element
      simp only [List.map_cons, List.nodup_cons] at nodup
      simp only [List.map_cons, hashKeys_cons] at space ⊢
      have free : InArray t.sizearray key ∨ 0 < t.room := by
        split_ifs at space with inside
        · exact Or.inl inside
        · exact Or.inr (by omega)
      obtain ⟨between, slot, inserted, provides, sizearray, unchanged, room⟩ :=
        valid.insert_room depth key free
      obtain ⟨size, _, dummy, _⟩ := between.write_fields slot (some val)
      have valid' := provides.valid.write ⟨key, provides.found⟩ (some val)
      have written := provides.valid.lookup_write provides.found (some val)
      have space' : hashKeys (between.write slot (some val)).sizearray (rest.map Prod.fst)
          ≤ (between.write slot (some val)).room := by
        rw [size, sizearray, write_room]
        omega
      obtain ⟨later, folded, validLater, sizeLater, dummyLater, roomLater, new, old⟩ :=
        ih valid' nodup.2 space'
      rw [size, sizearray, dummy] at dummyLater
      rw [size, sizearray, write_room] at roomLater
      refine ⟨later, ?_, validLater, sizeLater.trans (size.trans sizearray), ?_, by omega, ?_, ?_⟩
      · rw [List.foldlM_cons, put, inserted]
        exact folded
      · intro none
        split_ifs at none with inside
        rw [dummyLater none, unchanged inside]
      · intro key' val' member
        rcases List.mem_cons.mp member with same | member
        · cases same
          rw [old key nodup.1, written, if_pos rfl]
        · exact new key' val' member
      · intro other missing
        obtain ⟨apart, missing⟩ := not_or.mp (mt List.mem_cons.mpr missing)
        rw [old other missing, written, if_neg apart, provides.lookup]

-----------------------------------------------------------------------------------------
-- Resizing
-----------------------------------------------------------------------------------------

omit [DecidableEq Key] in
/-- What leaves the array part is part of what was there. -/
theorem vanishing_sublist (t : Table Key Val) (nasize : ℕ)
    : (t.vanishing nasize).Sublist (t.vanishing 0) := by
  rw [vanishing, vanishing]
  refine List.Sublist.filterMap _ ?_
  rcases le_total nasize t.sizearray with le | le
  · rw [Nat.sub_zero, ← Nat.add_sub_cancel' le, ← List.range'_append_1, Nat.add_sub_cancel_left,
      Nat.zero_add]
    exact List.sublist_append_right _ _
  · rw [Nat.sub_eq_zero_of_le le]
    exact List.nil_sublist _

omit [DecidableEq Key] in
theorem Valid.nodup_moved (valid : t.Valid) (nasize : ℕ)
    : ((t.vanishing nasize ++ t.hashElements).map Prod.fst).Nodup :=
  valid.nodup_keys.sublist (((t.vanishing_sublist nasize).append_right _).map _)

/-- The elements that stay in place are those of the part of the array that is kept. -/
theorem Valid.lookup_unmoved (valid : t.Valid) {nasize : ℕ} {key : Key}
    (unmoved : key ∉ (t.vanishing nasize ++ t.hashElements).map Prod.fst)
    : t.lookup key
      = if InArray nasize key then t.array (arrayindex key - 1).toNat else none := by
  have missing (val : Val) : (key, val) ∉ t.vanishing nasize ++ t.hashElements :=
    fun member => unmoved (List.mem_map.mpr ⟨_, member, rfl⟩)
  refine Option.ext fun val => ?_
  rw [← valid.mem_elements, elements, List.mem_append, valid.mem_vanishing]
  constructor
  · intro holds
    rcases holds with ⟨inside, _, present⟩ | member
    · by_cases stays : InArray nasize key
      · rwa [if_pos stays]
      · exact absurd (List.mem_append_left _ (valid.mem_vanishing.mpr ⟨inside, stays, present⟩))
          (missing val)
    · exact absurd (List.mem_append_right _ member) (missing val)
  · intro present
    split_ifs at present with stays
    refine Or.inl ⟨⟨stays.1, ?_⟩, not_inArray_zero key, present⟩
    by_contra beyond
    have positive := stays.1
    rw [valid.bounded _ (by omega)] at present
    cases present

/-- A resize with room for the keys that have no place in the new array part changes no value. -/
theorem Valid.resize_spec (valid : t.Valid) (depth : ℕ) {nasize nhsize : ℕ}
    (le : nasize ≤ maxasize) (bound : nhsize ≤ 2 ^ 32)
    (enough : hashKeys nasize t.keys ≤ nhsize)
    : (2 ^ maxbits < nhsize
        ∧ t.resize (luaHSetWithin (depth + 1)) nasize nhsize = .error .overflow)
      ∨ ∃ later,
          t.resize (luaHSetWithin (depth + 1)) nasize nhsize = .ok later
          ∧ later.Valid
          ∧ later.lookup = t.lookup
          ∧ later.sizearray = nasize
          ∧ (nhsize = 0 → later.dummy)
          ∧ nhsize ≤ later.room + hashKeys nasize t.keys := by
  rcases valid.resize_eq (luaHSetWithin (depth + 1)) nasize nhsize with
    ⟨overflows, failed⟩ | ⟨fits, resized⟩
  · exact Or.inl ⟨(overflows_iff bound).mp overflows, failed⟩
  · have fewer : hashKeys nasize ((t.vanishing nasize ++ t.hashElements).map Prod.fst)
        ≤ hashKeys nasize t.keys :=
      (((t.vanishing_sublist nasize).append_right _).map _).countP_le
    have room : nhsize ≤ (t.emptied nasize nhsize).room := t.room_emptied bound
    obtain ⟨later, folded, validLater, sizearray, dummy, roomLater, new, old⟩ :=
      (t.emptied_valid le fits).foldlM_put depth (valid.nodup_moved nasize)
        (fewer.trans (enough.trans room))
    refine Or.inr ⟨later, resized.trans folded, validLater, ?_, sizearray, fun none => ?_, ?_⟩
    · funext key
      by_cases moved : key ∈ (t.vanishing nasize ++ t.hashElements).map Prod.fst
      · obtain ⟨⟨_, val⟩, member, rfl⟩ := List.mem_map.mp moved
        have element : (_, val) ∈ t.elements :=
          ((t.vanishing_sublist nasize).append_right _).subset member
        rw [new _ _ member, valid.mem_elements.mp element]
      · rw [old key moved, valid.lookup_unmoved moved, lookup_emptied]
    · rw [dummy (Nat.le_zero.mp (fewer.trans (enough.trans none.le)))]
      exact decide_eq_true none
    · exact room.trans (roomLater.trans (Nat.add_le_add_left fewer _))

-----------------------------------------------------------------------------------------
-- luaH_set
-----------------------------------------------------------------------------------------

/-- A later table has been rehashed for one more key, and has a slot for it. -/
structure Rehashed (t later : Table Key Val) (key : Key) (slot : Slot) : Prop
    extends Provides t later key slot where
  best : BestSize (key :: t.keys) (maxbits + 1) later.sizearray
  dummy : hashKeys later.sizearray (key :: t.keys) = 0 → later.dummy

omit [DecidableEq Key] in
/-- No table has more elements than places. -/
theorem length_keys_le (t : Table Key Val) : t.keys.length ≤ t.sizearray + t.sizenode := by
  have array : (t.vanishing 0).length ≤ t.sizearray := by
    refine (List.length_filterMap_le _ _).trans ?_
    simp
  have hash : t.hashElements.length ≤ t.sizenode := by
    refine (List.length_filterMap_le _ _).trans ?_
    simp
  rw [keys, elements, List.length_map, List.length_append]
  omega

omit [DecidableEq Key] in
theorem Valid.sizes_le (valid : t.Valid) : t.sizearray + t.sizenode ≤ 2 ^ 27 := by
  have size := valid.size_le
  have nodes : t.sizenode ≤ 2 ^ maxbits := Nat.pow_le_pow_right Nat.two_pos valid.lsizenode_le
  rw [maxasize, maxbits] at size
  rw [maxbits] at nodes
  omega

/-- Where there is no room, the table grows, or has as many elements as a hash part can have. -/
theorem Valid.grow_spec (valid : t.Valid) (depth : ℕ) {key : Key}
    (absent : t.luaHGet key = none)
    : (2 ^ maxbits ≤ t.keys.length
        ∧ t.rehash (luaHSetWithin (depth + 1)) key = .error .overflow)
      ∨ ∃ grown later slot,
          t.rehash (luaHSetWithin (depth + 1)) key = .ok grown
          ∧ luaHSetWithin (depth + 1) grown key = .ok (later, slot)
          ∧ t.Rehashed later key slot := by
  have fresh : key ∉ t.keys := by
    rw [valid.mem_keys, lookup, absent]
    simp
  obtain ⟨n, best, rehashed⟩ := valid.rehash_eq (luaHSetWithin (depth + 1)) fresh
  have few := intKeys_add_hashKeys n (key :: t.keys)
  have length := t.length_keys_le
  have sizes := valid.sizes_le
  rw [List.length_cons] at few
  have bound : hashKeys n (key :: t.keys) ≤ 2 ^ 32 := by omega
  have enough : hashKeys n t.keys ≤ hashKeys n (key :: t.keys) := by
    rw [hashKeys_cons]
    exact Nat.le_add_right _ _
  rw [rehashed]
  rcases valid.resize_spec depth best.le_maxasize bound enough with
    ⟨large, failed⟩ | ⟨grown, resized, validGrown, lookup, sizearray, dummy, room⟩
  · exact Or.inl ⟨by omega, failed⟩
  · rw [hashKeys_cons] at room
    have free : InArray grown.sizearray key ∨ 0 < grown.room := by
      rw [sizearray]
      split_ifs at room with inside
      · exact Or.inl inside
      · exact Or.inr (by omega)
    obtain ⟨later, slot, inserted, provides, sizeLater, unchanged, _⟩ :=
      validGrown.insert_room depth key free
    refine Or.inr ⟨grown, later, slot, resized, inserted,
      ⟨provides.valid, provides.found, provides.lookup.trans lookup⟩, ?_, ?_⟩
    · rw [sizeLater, sizearray]
      exact best
    · rw [sizeLater, sizearray]
      intro none
      have inside : InArray grown.sizearray key := by
        rw [hashKeys_cons] at none
        split_ifs at none with inside
        rwa [sizearray]
      rw [unchanged inside]
      exact dummy none

/-- Everything `luaH_set` can do: it finds the key, it makes it in the hash part, it makes it in
a rehashed table, or there are too many elements for that.
-/
theorem Valid.luaHSet_cases (valid : t.Valid) (key : Key)
    : (∃ slot, t.luaHGet key = some slot ∧ luaHSet t key = .ok (t, slot))
      ∨ (t.luaHGet key = none ∧ t.dummy = false
        ∧ ∃ later i, luaHSet t key = .ok (later, .node i) ∧ t.Makes later key i)
      ∨ (t.luaHGet key = none
        ∧ ∃ later slot, luaHSet t key = .ok (later, slot) ∧ t.Rehashed later key slot)
      ∨ (2 ^ maxbits ≤ t.keys.length ∧ luaHSet t key = .error .overflow) := by
  rcases found : t.luaHGet key with _ | slot
  · rw [luaHSet, luaHSetWithin_missing found]
    rcases valid.newkey_cases found _ with ⟨notDummy, later, i, made, makes⟩ | ⟨grows, _, valid'⟩
    · exact Or.inr (Or.inl ⟨rfl, notDummy, later, i, made, makes⟩)
    · rw [grows]
      rcases valid'.grow_spec 0 found with
        ⟨large, failed⟩ | ⟨grown, later, slot, rehashed, inserted, made⟩
      · exact Or.inr (Or.inr (Or.inr ⟨large, by rw [failed]; rfl⟩))
      · exact Or.inr (Or.inr (Or.inl ⟨rfl, later, slot, by rw [rehashed]; exact inserted,
          { made with }⟩))
  · exact Or.inl ⟨slot, rfl, luaHSetWithin_found found⟩

theorem Valid.luaHSet_spec (valid : t.Valid) (key : Key)
    : (∃ later slot, luaHSet t key = .ok (later, slot) ∧ t.Provides later key slot)
      ∨ (2 ^ maxbits ≤ t.keys.length ∧ luaHSet t key = .error .overflow) := by
  rcases valid.luaHSet_cases key with ⟨slot, found, set⟩ | ⟨absent, _, later, i, set, makes⟩
    | ⟨_, later, slot, set, rehashed⟩ | overflows
  · exact Or.inl ⟨t, slot, set, valid, found, rfl⟩
  · exact Or.inl ⟨later, _, set, makes.valid, makes.luaHGet, makes.lookup valid absent⟩
  · exact Or.inl ⟨later, slot, set, rehashed.toProvides⟩
  · exact Or.inr overflows

/-- An assignment changes the value under its key, and no other. -/
theorem Valid.assign_spec (valid : t.Valid) (key : Key) (val : Option Val)
    : (∃ later, t.assign key val = .ok later ∧ later.Valid
        ∧ later.lookup = Function.update t.lookup key val)
      ∨ (2 ^ maxbits ≤ t.keys.length ∧ t.assign key val = .error .overflow) := by
  rcases valid.luaHSet_spec key with ⟨later, slot, set, provides⟩ | ⟨large, failed⟩
  · refine Or.inl ⟨later.write slot val, by rw [assign, set]; rfl,
      provides.valid.write ⟨key, provides.found⟩ val, ?_⟩
    funext other
    rw [provides.valid.lookup_write provides.found, provides.lookup, Function.update_apply]
  · exact Or.inr ⟨large, by rw [assign, failed]; rfl⟩

-----------------------------------------------------------------------------------------
-- Runs
-----------------------------------------------------------------------------------------

variable (Key Val) in
omit [TableKey Key] [DecidableEq Key] in
theorem luaHNew_eq (narray nhash : ℕ)
    : (Overflows nhash ∧ (luaHNew narray nhash : Except Failure (Table Key Val)) = .error .overflow)
      ∨ (¬ Overflows nhash
        ∧ luaHNew narray nhash
          = .ok ((⟨0, fun _ => none, 0, true, fun _ => .empty, 0⟩ : Table Key Val).emptied
              narray nhash)) := by
  rw [luaHNew]
  rcases setnodevector_eq (Table.setarrayvector (⟨0, fun _ => none, 0, true, fun _ => .empty, 0⟩
    : Table Key Val) narray) nhash with ⟨overflows, failed⟩ | ⟨fits, made⟩
  · exact Or.inl ⟨overflows, failed⟩
  · refine Or.inr ⟨fits, made.trans ?_⟩
    simp [setarrayvector, emptied]

variable (Key Val) in
/-- A new table is empty. -/
theorem luaHNew_spec {narray nhash : ℕ} (arrayFits : narray ≤ maxasize)
    (hashFits : nhash ≤ maxasize)
    : ∃ t : Table Key Val, luaHNew narray nhash = .ok t ∧ t.Valid ∧ t.lookup = fun _ => none := by
  have bound : nhash ≤ 2 ^ 32 := hashFits.trans (Nat.pow_le_pow_right Nat.two_pos (by decide))
  rcases luaHNew_eq Key Val narray nhash with ⟨overflows, _⟩ | ⟨fits, made⟩
  · exact absurd ((overflows_iff bound).mp overflows) (not_lt.mpr hashFits)
  · refine ⟨_, made, emptied_valid _ arrayFits fits, funext fun key => ?_⟩
    rw [lookup_emptied, ite_self]

/-- A table that Lua has made, and assigned to. -/
inductive Made : Table Key Val → Prop
  | new {narray nhash : ℕ} {t : Table Key Val} (fits : narray ≤ maxasize)
    (made : luaHNew narray nhash = .ok t)
    : Made t
  | assign {t later : Table Key Val} {key : Key} {val : Option Val} (made : Made t)
    (assigned : t.assign key val = .ok later)
    : Made later

theorem Valid.of_assign {t later : Table Key Val} {key : Key} {val : Option Val} (valid : t.Valid)
    (assigned : t.assign key val = .ok later)
    : later.Valid ∧ later.lookup = Function.update t.lookup key val := by
  rcases valid.assign_spec key val with ⟨found, done, validFound, lookup⟩ | ⟨_, failed⟩
  · cases done.symm.trans assigned
    exact ⟨validFound, lookup⟩
  · cases failed.symm.trans assigned

theorem Made.valid {t : Table Key Val} (made : t.Made) : t.Valid := by
  induction made with
  | @new narray nhash t fits made =>
      rcases luaHNew_eq Key Val narray nhash with ⟨_, failed⟩ | ⟨room, done⟩
      · cases failed.symm.trans made
      · cases done.symm.trans made
        exact emptied_valid _ fits room
  | assign _ assigned ih => exact (ih.of_assign assigned).1

/-- A script that assigns to elements of a table. -/
def assignAll (t : Table Key Val) (script : List (Key × Option Val))
    : Except Failure (Table Key Val) :=
  script.foldlM (fun t assignment => t.assign assignment.1 assignment.2) t

/-- The values a script leaves. -/
def valuesAfter (values : Key → Option Val) (script : List (Key × Option Val))
    : Key → Option Val :=
  script.foldl (fun values assignment => Function.update values assignment.1 assignment.2) values

omit [TableKey Key] in
theorem valuesAfter_cons (values : Key → Option Val) (assignment : Key × Option Val)
    (rest : List (Key × Option Val))
    : valuesAfter values (assignment :: rest)
      = valuesAfter (Function.update values assignment.1 assignment.2) rest :=
  rfl

/-- As many keys as the table has elements have a value. -/
theorem Valid.ncard_keys (valid : t.Valid)
    : {key | (t.lookup key).isSome}.ncard = t.keys.length := by
  have same : {key | (t.lookup key).isSome} = (t.keys.toFinset : Set Key) := by
    ext key
    simp [valid.mem_keys, Option.isSome_iff_exists]
  rw [same, Set.ncard_coe_finset, List.toFinset_card_of_nodup valid.nodup_keys]

/-- A script leaves the values of its last assignments. It fails only after as many keys as a
hash part can have have got a value; by induction on the script.
-/
theorem Valid.assignAll_spec (script : List (Key × Option Val))
    : ∀ {t : Table Key Val}, t.Valid
      → (∃ later,
          t.assignAll script = .ok later
          ∧ later.Valid
          ∧ later.lookup = valuesAfter t.lookup script)
        ∨ (t.assignAll script = .error .overflow
          ∧ ∃ before, before <+: script
            ∧ maxasize ≤ {key | (valuesAfter t.lookup before key).isSome}.ncard) := by
  induction script with
  | nil => exact fun valid => Or.inl ⟨_, rfl, valid, rfl⟩
  | cons assignment rest ih =>
      intro t valid
      rcases valid.assign_spec assignment.1 assignment.2 with
        ⟨between, assigned, validBetween, lookup⟩ | ⟨large, failed⟩
      · rw [assignAll, List.foldlM_cons, assigned]
        rcases ih validBetween with
          ⟨later, run, validLater, values⟩ | ⟨failed, before, isPrefix, large⟩
        · exact Or.inl ⟨later, run, validLater, by rw [values, lookup, valuesAfter_cons]⟩
        · refine Or.inr ⟨failed, assignment :: before,
            List.cons_prefix_cons.mpr ⟨rfl, isPrefix⟩, ?_⟩
          rwa [valuesAfter_cons, ← lookup]
      · refine Or.inr ⟨?_, [], List.nil_prefix, ?_⟩
        · rw [assignAll, List.foldlM_cons, failed]
          rfl
        · exact large.trans valid.ncard_keys.ge

/-- A table is a map from keys to values: after any script, a new table has the values that the
last assignment to each key gave it. The only failure is "table overflow", and then a part of
the script has left a value to 2 ^ 26 keys.
-/
theorem lookup_assignAll {narray nhash : ℕ} (arrayFits : narray ≤ maxasize)
    (hashFits : nhash ≤ maxasize) (script : List (Key × Option Val))
    : ∃ t : Table Key Val,
        luaHNew narray nhash = .ok t
        ∧ ((∃ later,
              t.assignAll script = .ok later
              ∧ later.lookup = valuesAfter (fun _ => none) script)
          ∨ (t.assignAll script = .error .overflow
            ∧ ∃ before, before <+: script
              ∧ maxasize
                ≤ {key | (valuesAfter (fun _ => none) before key : Option Val).isSome}.ncard)) := by
  obtain ⟨t, made, valid, empty⟩ := luaHNew_spec Key Val arrayFits hashFits
  refine ⟨t, made, ?_⟩
  rw [← empty]
  rcases valid.assignAll_spec script with ⟨later, run, _, values⟩ | failed
  · exact Or.inl ⟨later, run, values⟩
  · exact Or.inr failed

theorem lookup_assignAll_four_two
    : ∃ t : Table ℤ ℕ,
        luaHNew 4 2 = .ok t
        ∧ ((∃ later,
              t.assignAll [(1, some 10), (-7, some 20), (1, none)] = .ok later
              ∧ later.lookup = valuesAfter (fun _ => none) [(1, some 10), (-7, some 20), (1, none)])
          ∨ (t.assignAll [(1, some 10), (-7, some 20), (1, none)] = .error .overflow
            ∧ ∃ before, before <+: [(1, some 10), (-7, some 20), (1, none)]
              ∧ maxasize
                ≤ {key | (valuesAfter (fun _ => none) before key : Option ℕ).isSome}.ncard)) :=
  lookup_assignAll (by decide) (by decide) _

end Table

end Labrea.LuaTable
