import Labrea.TableRehash

/-! A traversal with `next` goes through the slots of a table in a fixed order. As long as no new
key is made it meets every key that keeps a value, and none twice.
-/

namespace Labrea.LuaTable

open TableKey (toInt number)

variable {Key Val : Type} [TableKey Key] [DecidableEq Key]

/-- The place of a slot in a traversal. -/
def Slot.place (sizearray : ℕ) : Slot → ℕ
  | .array i => i
  | .node i => sizearray + i

namespace Table

variable {t : Table Key Val}

/-- The value of a key is in the slot that has its place. -/
theorem Valid.entryAt_eq_some (valid : t.Valid) {place : ℕ} {key : Key} {val : Val}
    : t.entryAt place = some (key, val)
      ↔ ∃ slot, t.luaHGet key = some slot ∧ slot.place t.sizearray = place
          ∧ t.read slot = some val := by
  rw [entryAt]
  split_ifs with inside
  · rw [Option.map_eq_some_iff]
    constructor
    · intro holds
      obtain ⟨_, found, same⟩ := holds
      cases same
      have index : arrayindex (number (place + 1) : Key) = place + 1 :=
        arrayindex_place (inside.trans_le valid.size_le)
      exact ⟨.array place, luaHGet_array.mpr ⟨⟨by omega, by omega⟩, by omega⟩, rfl, found⟩
    · intro holds
      obtain ⟨slot, found, rfl, present⟩ := holds
      cases slot with
      | array i =>
          obtain ⟨⟨positive, le⟩, index⟩ := luaHGet_array.mp found
          refine ⟨val, present, ?_⟩
          have same : ((i : ℤ) + 1) = arrayindex key := by omega
          rw [Slot.place, same, number_arrayindex positive]
      | node i => exact absurd inside (by simp [Slot.place])
  · rw [Node.element_eq_some]
    constructor
    · intro holds
      obtain ⟨found, present⟩ := holds
      exact ⟨.node (place - t.sizearray), valid.luaHGet_node.mpr found,
        by rw [Slot.place]; omega, present⟩
    · intro holds
      obtain ⟨slot, found, rfl, present⟩ := holds
      cases slot with
      | array i =>
          obtain ⟨⟨positive, le⟩, index⟩ := luaHGet_array.mp found
          exact absurd inside (by rw [Slot.place]; omega)
      | node i =>
          rw [Slot.place, Nat.add_sub_cancel_left]
          exact ⟨valid.luaHGet_node.mp found, present⟩

theorem Valid.place_lt (valid : t.Valid) {key : Key} {slot : Slot}
    (found : t.luaHGet key = some slot)
    : slot.place t.sizearray < t.sizearray + t.sizenode := by
  cases slot with
  | array i =>
      obtain ⟨⟨positive, le⟩, index⟩ := luaHGet_array.mp found
      rw [Slot.place]
      omega
  | node i =>
      have := valid.inside i (by simp [valid.luaHGet_node.mp found])
      rw [Slot.place]
      omega

/-- Keys have places of their own. -/
theorem Valid.place_inj (valid : t.Valid) {key other : Key} {slot slot' : Slot}
    (found : t.luaHGet key = some slot) (found' : t.luaHGet other = some slot')
    (same : slot.place t.sizearray = slot'.place t.sizearray)
    : key = other := by
  have below {i : ℕ} {key : Key} (found : t.luaHGet key = some (.array i)) : i < t.sizearray := by
    obtain ⟨⟨positive, le⟩, index⟩ := luaHGet_array.mp found
    omega
  have slots : slot = slot' := by
    cases slot with
    | array i =>
        cases slot' with
        | array j => exact congrArg Slot.array same
        | node j =>
            have := below found
            simp only [Slot.place] at same
            omega
    | node i =>
        cases slot' with
        | array j =>
            have := below found'
            simp only [Slot.place] at same
            omega
        | node j => exact congrArg Slot.node (Nat.add_left_cancel same)
  exact valid.luaHGet_inj found (slots ▸ found')

/-- A traversal that is at a key, or has not begun, has the places from one on left. -/
def Cursor (t : Table Key Val) (control : Option Key) (first : ℕ) : Prop :=
  match control with
  | none => first = 0
  | some key => ∃ slot, t.luaHGet key = some slot ∧ first = slot.place t.sizearray + 1

theorem findindex_eq {key : Key} {slot : Slot} (found : t.luaHGet key = some slot)
    : t.findindex (some key) = .ok (slot.place t.sizearray) := by
  rw [luaHGet_eq] at found
  rw [findindex]
  by_cases inside : InArray t.sizearray key
  · rw [if_pos inside] at found
    cases found
    rw [InArray] at inside
    rw [if_pos inside, Slot.place, Int.toNat_of_nonneg (by omega)]
  · rw [if_neg inside] at found
    obtain ⟨i, chain, rfl⟩ := Option.map_eq_some_iff.mp found
    rw [InArray] at inside
    rw [if_neg inside, chain]
    simp [Slot.place, Int.add_comm]

theorem Cursor.findindex {control : Option Key} {first : ℕ} (cursor : t.Cursor control first)
    : t.findindex control = .ok ((first : ℤ) - 1) := by
  cases control with
  | none =>
      rw [show first = 0 from cursor]
      rfl
  | some key =>
      obtain ⟨slot, found, rfl⟩ := cursor
      rw [findindex_eq found]
      simp

/-- The search of a traversal for the next element, by induction on the places. -/
theorem findSome_range' {α : Type} {entry : ℕ → Option α} {item : α}
    : ∀ {places first : ℕ}, (List.range' first places).findSome? entry = some item
      → ∃ place, first ≤ place ∧ entry place = some item
          ∧ ∀ before, first ≤ before → before < place → entry before = none := by
  intro places
  induction places with
  | zero => exact fun found => absurd found (by simp)
  | succ places ih =>
      intro first found
      rw [List.range'_succ, List.findSome?_cons] at found
      rcases here : entry first with _ | other
      · rw [here] at found
        obtain ⟨place, le, there, none⟩ := ih found
        refine ⟨place, by omega, there, fun before above below => ?_⟩
        rcases Nat.eq_or_lt_of_le above with rfl | above
        · exact here
        · exact none before above below
      · rw [here] at found
        cases found
        exact ⟨first, le_rfl, here, fun before above below => by omega⟩

/-- What `luaH_next` gives: the element with the next place, or none if nothing is left. -/
theorem Valid.luaHNext_spec (valid : t.Valid) {control : Option Key} {first : ℕ}
    (cursor : t.Cursor control first)
    : (∃ key val slot,
        t.luaHNext control = .ok (some (key, val))
        ∧ t.luaHGet key = some slot
        ∧ t.read slot = some val
        ∧ first ≤ slot.place t.sizearray
        ∧ ∀ other slot', t.luaHGet other = some slot' → (t.read slot').isSome
          → slot'.place t.sizearray < slot.place t.sizearray → slot'.place t.sizearray < first)
      ∨ (t.luaHNext control = .ok none
        ∧ ∀ other slot', t.luaHGet other = some slot' → (t.read slot').isSome
          → slot'.place t.sizearray < first) := by
  have start : t.luaHNext control
      = .ok ((List.range' first (t.sizearray + t.sizenode - first)).findSome? t.entryAt) := by
    have left : ((first : ℤ) - 1 + 1).toNat = first := by omega
    rw [luaHNext, cursor.findindex]
    change Except.ok (List.findSome? t.entryAt (List.range' ((first : ℤ) - 1 + 1).toNat
      (t.sizearray + t.sizenode - ((first : ℤ) - 1 + 1).toNat))) = _
    rw [left]
  rw [start]
  rcases search : (List.range' first (t.sizearray + t.sizenode - first)).findSome? t.entryAt with
    _ | ⟨key, val⟩
  · refine Or.inr ⟨rfl, fun other slot' found present => ?_⟩
    obtain ⟨val, present⟩ := Option.isSome_iff_exists.mp present
    by_contra left
    have here := List.findSome?_eq_none_iff.mp search (slot'.place t.sizearray)
      (List.mem_range'_1.mpr ⟨not_lt.mp left, by have := valid.place_lt found; omega⟩)
    have there := valid.entryAt_eq_some.mpr ⟨slot', found, rfl, present⟩
    cases here.symm.trans there
  · obtain ⟨place, le, entry, none⟩ := findSome_range' search
    obtain ⟨slot, found, rfl, present⟩ := valid.entryAt_eq_some.mp entry
    refine Or.inl ⟨key, val, slot, rfl, found, present, le, ?_⟩
    intro other slot' found' present' less
    obtain ⟨val', present'⟩ := Option.isSome_iff_exists.mp present'
    by_contra left
    have here := none _ (not_lt.mp left) less
    have there := valid.entryAt_eq_some.mpr ⟨slot', found', rfl, present'⟩
    cases here.symm.trans there

-----------------------------------------------------------------------------------------
-- What a traversal has left
-----------------------------------------------------------------------------------------

/-- The key has a value, and a traversal that is at another key has it left. -/
def Left (t : Table Key Val) (control : Option Key) (key : Key) : Prop :=
  ∃ first slot, t.Cursor control first ∧ t.luaHGet key = some slot ∧ (t.read slot).isSome
    ∧ first ≤ slot.place t.sizearray

theorem Cursor.unique {control : Option Key} {first other : ℕ} (cursor : t.Cursor control first)
    (cursor' : t.Cursor control other)
    : first = other := by
  cases control with
  | none => exact Eq.trans cursor (Eq.symm cursor')
  | some key =>
      obtain ⟨slot, found, rfl⟩ := cursor
      obtain ⟨slot', found', rfl⟩ := cursor'
      cases found.symm.trans found'
      rfl

theorem isSome_lookup {key : Key}
    : (t.lookup key).isSome ↔ ∃ slot, t.luaHGet key = some slot ∧ (t.read slot).isSome := by
  rw [lookup]
  rcases t.luaHGet key with _ | slot <;> simp

theorem left_none {key : Key} : t.Left none key ↔ (t.lookup key).isSome := by
  rw [isSome_lookup]
  constructor
  · intro holds
    obtain ⟨_, slot, _, found, present, _⟩ := holds
    exact ⟨slot, found, present⟩
  · intro holds
    obtain ⟨slot, found, present⟩ := holds
    exact ⟨0, slot, rfl, found, present, Nat.zero_le _⟩

theorem Left.present {control : Option Key} {key : Key} (left : t.Left control key)
    : (t.lookup key).isSome := by
  obtain ⟨_, slot, _, found, present, _⟩ := left
  exact isSome_lookup.mpr ⟨slot, found, present⟩

theorem not_left_self (key : Key) : ¬ t.Left (some key) key := by
  intro holds
  obtain ⟨_, slot, ⟨slot', found', rfl⟩, found, _, le⟩ := holds
  cases found.symm.trans found'
  exact absurd le (Nat.not_succ_le_self _)

/-- A step of a traversal takes one key from what is left. -/
structure Takes (t : Table Key Val) (control : Option Key) (key : Key) (val : Val) : Prop where
  cursor : ∃ first, t.Cursor (some key) first
  value : t.lookup key = some val
  left : t.Left control key
  others : ∀ other, t.Left control other ↔ other = key ∨ t.Left (some key) other

/-- A traversal never meets an invalid key: it takes a key that is left, or nothing is left. -/
theorem Valid.luaHNext_cases (valid : t.Valid) {control : Option Key} {first : ℕ}
    (cursor : t.Cursor control first)
    : (∃ key val, t.luaHNext control = .ok (some (key, val)) ∧ t.Takes control key val)
      ∨ (t.luaHNext control = .ok none ∧ ∀ key, ¬ t.Left control key) := by
  rcases valid.luaHNext_spec cursor with
    ⟨key, val, slot, next, found, present, le, before⟩ | ⟨done, before⟩
  · have here : t.Cursor (some key) (slot.place t.sizearray + 1) := ⟨slot, found, rfl⟩
    refine Or.inl ⟨key, val, next, ⟨_, here⟩, ?_, ?_, fun other => ?_⟩
    · rw [lookup, found]
      exact present
    · exact ⟨first, slot, cursor, found, by simp [present], le⟩
    · constructor
      · intro holds
        obtain ⟨first', slot', cursor', found', present', le'⟩ := holds
        rw [← cursor.unique cursor'] at le'
        rcases lt_trichotomy (slot'.place t.sizearray) (slot.place t.sizearray) with
          less | same | more
        · exact absurd (before other slot' found' present' less) (not_lt.mpr le')
        · exact Or.inl (valid.place_inj found' found same)
        · exact Or.inr ⟨_, slot', here, found', present', more⟩
      · intro holds
        rcases holds with rfl | ⟨first', slot', cursor', found', present', le'⟩
        · exact ⟨first, slot, cursor, found, by simp [present], le⟩
        · rw [← here.unique cursor'] at le'
          exact ⟨first, slot', cursor, found', present', by omega⟩
  · refine Or.inr ⟨done, fun key => ?_⟩
    intro holds
    obtain ⟨first', slot, cursor', found, present, le⟩ := holds
    rw [← cursor.unique cursor'] at le
    exact absurd (before key slot found present) (not_lt.mpr le)

theorem Takes.mem_erase {control : Option Key} {key : Key} {val : Val} {keys : List Key}
    (takes : t.Takes control key val) (nodup : keys.Nodup)
    (all : ∀ key, key ∈ keys ↔ t.Left control key) (other : Key)
    : other ∈ keys.erase key ↔ t.Left (some key) other := by
  rw [nodup.mem_erase_iff, all, takes.others]
  constructor
  · intro holds
    rcases holds with ⟨apart, same | left⟩
    · exact absurd same apart
    · exact left
  · intro left
    refine ⟨?_, Or.inr left⟩
    intro same
    subst same
    exact not_left_self other left

/-- A traversal has so many keys left. -/
def LeftCount (t : Table Key Val) (control : Option Key) (count : ℕ) : Prop :=
  ∃ keys : List Key, keys.Nodup ∧ keys.length = count ∧ ∀ key, key ∈ keys ↔ t.Left control key

/-- It has no more keys left than have a value. -/
theorem Valid.leftCount (valid : t.Valid) (control : Option Key)
    : ∃ count, count ≤ t.keys.length ∧ t.LeftCount control count := by
  classical
  refine ⟨_, List.length_filter_le (fun key => t.Left control key) t.keys, _,
    valid.nodup_keys.filter _, rfl, fun key => ?_⟩
  rw [List.mem_filter, decide_eq_true_eq, valid.mem_keys, ← Option.isSome_iff_exists]
  exact and_iff_right_of_imp Left.present

theorem Takes.leftCount {control : Option Key} {key : Key} {val : Val} {count : ℕ}
    (takes : t.Takes control key val) (left : t.LeftCount control count)
    : ∃ fewer, count = fewer + 1 ∧ t.LeftCount (some key) fewer := by
  obtain ⟨keys, nodup, rfl, all⟩ := left
  have member : key ∈ keys := (all key).mpr takes.left
  refine ⟨(keys.erase key).length, ?_, keys.erase key, nodup.erase key, rfl,
    takes.mem_erase nodup all⟩
  rw [List.length_erase_of_mem member]
  have := List.length_pos_of_mem member
  omega

-----------------------------------------------------------------------------------------
-- Assigning to existing fields meanwhile
-----------------------------------------------------------------------------------------

theorem assign_found {key : Key} {slot : Slot} (found : t.luaHGet key = some slot)
    (val : Option Val)
    : t.assign key val = .ok (t.write slot val) := by
  rw [assign, luaHSet, luaHSetWithin_found found]
  rfl

theorem write_cursor {slot : Slot} {val : Option Val} {control : Option Key} {first : ℕ}
    : (t.write slot val).Cursor control first ↔ t.Cursor control first := by
  cases control with
  | none => exact Iff.rfl
  | some key => simp only [Cursor, write_luaHGet, (t.write_fields slot val).1]

/-- Assigning to a field changes what is left only by that field's own key. -/
theorem Valid.write_left (valid : t.Valid) {key : Key} {slot : Slot}
    (found : t.luaHGet key = some slot) (val : Option Val) {control : Option Key} {other : Key}
    (apart : other ≠ key)
    : (t.write slot val).Left control other ↔ t.Left control other := by
  have read {slot' : Slot} (found' : t.luaHGet other = some slot')
      : (t.write slot val).read slot' = t.read slot' := by
    refine t.read_write_other val ?_
    intro same
    subst same
    exact apart (valid.luaHGet_inj found' found)
  simp only [Left, write_cursor, write_luaHGet, (t.write_fields slot val).1]
  refine exists_congr fun first => exists_congr fun slot' => and_congr_right fun _ => ?_
  refine and_congr_right fun found' => ?_
  rw [read found']

/-- Assigning to the field that a traversal is at changes nothing of what is left. -/
theorem Valid.write_left_at (valid : t.Valid) {key : Key} {slot : Slot}
    (found : t.luaHGet key = some slot) (val : Option Val) (other : Key)
    : (t.write slot val).Left (some key) other ↔ t.Left (some key) other := by
  by_cases same : other = key
  · rw [same]
    exact iff_of_false (not_left_self key) (not_left_self key)
  · exact valid.write_left found val same

theorem Valid.write_leftCount (valid : t.Valid) {key : Key} {slot : Slot}
    (found : t.luaHGet key = some slot) (val : Option Val) {count : ℕ}
    (left : t.LeftCount (some key) count)
    : (t.write slot val).LeftCount (some key) count := by
  obtain ⟨keys, nodup, length, all⟩ := left
  exact ⟨keys, nodup, length, fun other =>
    (all other).trans (valid.write_left_at found val other).symm⟩

/-- A field that has a value before and after an assignment is left after it if it was. -/
theorem write_left_self {key : Key} {slot : Slot}
    (found : t.luaHGet key = some slot) {val : Option Val} {control : Option Key}
    (present : (t.lookup key).isSome)
    : (t.write slot val).Left control key ↔ t.Left control key ∧ val.isSome := by
  have existing : (t.read slot).isSome := by
    rwa [lookup, found] at present
  simp only [Left, write_cursor, write_luaHGet, (t.write_fields slot val).1, found]
  constructor
  · intro holds
    obtain ⟨first, _, cursor, same, some, le⟩ := holds
    cases same
    rw [read_write_self] at some
    exact ⟨⟨first, slot, cursor, rfl, existing, le⟩, some⟩
  · intro holds
    obtain ⟨⟨first, _, cursor, same, _, le⟩, some⟩ := holds
    cases same
    exact ⟨first, slot, cursor, rfl, by rwa [read_write_self], le⟩

/-- A loop `for key, val in pairs(t)` that assigns, between its steps, to existing fields: where
it is, and what it has visited.
-/
inductive Loop (start : Table Key Val)
    : Table Key Val → Option Key → List (Key × Val) → Prop
  | start : Loop start start none []
  | assign {t later : Table Key Val} {control : Option Key} {visited : List (Key × Val)}
    {key : Key} {val : Option Val} (loop : Loop start t control visited)
    (existing : (t.lookup key).isSome) (assigned : t.assign key val = .ok later)
    : Loop start later control visited
  | visit {t : Table Key Val} {control : Option Key} {visited : List (Key × Val)} {key : Key}
    {val : Val} (loop : Loop start t control visited)
    (next : t.luaHNext control = .ok (some (key, val)))
    : Loop start t (some key) (visited ++ [(key, val)])

/-- What holds in every such loop. -/
structure Visiting (start t : Table Key Val) (control : Option Key) (visited : List Key)
    : Prop where
  valid : t.Valid
  cursor : ∃ first, t.Cursor control first
  nodup : visited.Nodup
  gone : ∀ key ∈ visited, ¬ t.Left control key
  all : ∀ key, (t.lookup key).isSome → key ∈ visited ∨ t.Left control key
  old : ∀ key, (t.lookup key).isSome → (start.lookup key).isSome
  known : ∀ key ∈ visited, (start.lookup key).isSome

theorem Loop.visiting {start t : Table Key Val} {control : Option Key}
    {visited : List (Key × Val)} (valid : start.Valid) (loop : Loop start t control visited)
    : Visiting start t control (visited.map Prod.fst) := by
  induction loop with
  | start =>
      exact ⟨valid, ⟨0, rfl⟩, List.nodup_nil, by simp, fun key some => Or.inr (left_none.mpr some),
        fun _ some => some, by simp⟩
  | @assign t later control visited key val loop existing assigned ih =>
      obtain ⟨slot, found, present⟩ := isSome_lookup.mp existing
      cases (assign_found found val).symm.trans assigned
      have live {other : Key} (some : ((t.write slot val).lookup other).isSome)
          : (t.lookup other).isSome := by
        rw [ih.valid.lookup_write found] at some
        split_ifs at some with same
        · rwa [same]
        · exact some
      refine ⟨ih.valid.write ⟨key, found⟩ val, ?_, ih.nodup, fun other member left => ?_,
        fun other some => ?_, fun other some => ih.old other (live some), ih.known⟩
      · simpa only [write_cursor] using ih.cursor
      · by_cases same : other = key
        · rw [same] at left member
          exact ih.gone key member ((write_left_self found existing).mp left).1
        · exact ih.gone other member ((ih.valid.write_left found val same).mp left)
      · refine (ih.all other (live some)).imp_right fun left => ?_
        by_cases same : other = key
        · rw [same] at left ⊢
          rw [same, ih.valid.lookup_write found, if_pos rfl] at some
          exact (write_left_self found existing).mpr ⟨left, some⟩
        · exact (ih.valid.write_left found val same).mpr left
  | @visit t control visited key val loop next ih =>
      obtain ⟨first, cursor⟩ := ih.cursor
      rcases ih.valid.luaHNext_cases cursor with ⟨_, _, next', takes⟩ | ⟨done, _⟩
      · cases next.symm.trans next'
        rw [List.map_append, List.map_singleton]
        refine ⟨ih.valid, takes.cursor, ?_, fun other member left => ?_, fun other some => ?_,
          ih.old, fun other member => ?_⟩
        · refine List.Nodup.append ih.nodup (List.nodup_singleton key) ?_
          intro other member here
          rw [List.mem_singleton.mp here] at member
          exact ih.gone key member takes.left
        · rcases List.mem_append.mp member with member | here
          · exact ih.gone other member ((takes.others other).mpr (Or.inr left))
          · rw [List.mem_singleton.mp here] at left
            exact not_left_self key left
        · rcases ih.all other some with member | left
          · exact Or.inl (List.mem_append_left _ member)
          · refine ((takes.others other).mp left).imp_left fun here => ?_
            exact List.mem_append_right _ (List.mem_singleton.mpr here)
        · rcases List.mem_append.mp member with member | here
          · exact ih.known other member
          · rw [List.mem_singleton.mp here]
            exact ih.old key takes.left.present
      · cases next.symm.trans done

/-- A loop over a table that assigns only to existing fields visits no key twice and only keys
of the table, never fails, and has visited every key that still has a value when it ends.
-/
theorem Loop.visits_once {start t : Table Key Val} (made : start.Made) {control : Option Key}
    {visited : List (Key × Val)} (loop : Loop start t control visited)
    : (visited.map Prod.fst).Nodup
      ∧ (∀ key ∈ visited.map Prod.fst, (start.lookup key).isSome)
      ∧ ∃ next, t.luaHNext control = .ok next
          ∧ (next = none → ∀ key, (t.lookup key).isSome → key ∈ visited.map Prod.fst) := by
  have visiting := loop.visiting made.valid
  refine ⟨visiting.nodup, visiting.known, ?_⟩
  obtain ⟨first, cursor⟩ := visiting.cursor
  rcases visiting.valid.luaHNext_cases cursor with ⟨key, val, next, _⟩ | ⟨done, none⟩
  · exact ⟨_, next, by simp⟩
  · exact ⟨_, done, fun _ key some => (visiting.all key some).resolve_right (none key)⟩

theorem Loop.visits_once_cleared
    : let blank : Table ℤ ℕ := ⟨0, fun _ => none, 0, true, fun _ => .empty, 0⟩
      let start := ((blank.setarrayvector 2).write (.array 0) (some 10)).write (.array 1) (some 20)
      let later := start.write (.array 0) none
      ([((1 : ℤ), 10), (2, 20)].map Prod.fst).Nodup
      ∧ (∀ key ∈ [((1 : ℤ), 10), (2, 20)].map Prod.fst, (start.lookup key).isSome)
      ∧ ∃ next, later.luaHNext (some 2) = .ok next
          ∧ (next = none
            → ∀ key, (later.lookup key).isSome → key ∈ [((1 : ℤ), 10), (2, 20)].map Prod.fst) := by
  intro blank start later
  have room : luaHNew 2 0 = .ok (blank.setarrayvector 2) := rfl
  have new : Made (blank.setarrayvector 2) := .new (by decide) room
  have one : (blank.setarrayvector 2).luaHGet 1 = some (.array 0) := rfl
  have two : ((blank.setarrayvector 2).write (.array 0) (some 10)).luaHGet 2
      = some (.array 1) := rfl
  have made : start.Made := .assign (.assign new (assign_found one _)) (assign_found two _)
  have there : start.luaHGet 1 = some (.array 0) := rfl
  have cleared : Loop start later (some 1) [(1, 10)] :=
    .assign (.visit .start rfl) rfl (assign_found there none)
  exact Loop.visits_once made (.visit cleared rfl)

end Table

end Labrea.LuaTable
