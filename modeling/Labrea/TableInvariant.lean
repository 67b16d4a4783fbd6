import Labrea.LuaTable

/-! What holds of every table: each key can be found from its main position, whatever has
collided there and been moved away since.
-/

namespace Labrea.LuaTable

open TableKey (toInt number)
open Chain (Reaches)

variable {Key Val : Type}

namespace Table

/-- Writing a value leaves the keys and the chains. -/
theorem write_key (t : Table Key Val) (slot : Slot) (val : Option Val) (i : ℕ)
    : ((t.write slot val).node i).key = (t.node i).key := by
  cases slot with
  | array => rfl
  | node j =>
      by_cases same : i = j
      · subst same
        simp [write]
      · simp [write, Function.update_of_ne same]

theorem write_next (t : Table Key Val) (slot : Slot) (val : Option Val)
    : (t.write slot val).next = t.next := by
  funext i
  cases slot with
  | array => rfl
  | node j =>
      by_cases same : i = j
      · subst same
        simp [next, write]
      · simp [next, write, Function.update_of_ne same]

theorem write_fields (t : Table Key Val) (slot : Slot) (val : Option Val)
    : (t.write slot val).sizearray = t.sizearray ∧ (t.write slot val).lsizenode = t.lsizenode
      ∧ (t.write slot val).dummy = t.dummy ∧ (t.write slot val).lastfree = t.lastfree := by
  cases slot <;> exact ⟨rfl, rfl, rfl, rfl⟩

theorem read_write_self (t : Table Key Val) (slot : Slot) (val : Option Val)
    : (t.write slot val).read slot = val := by
  cases slot <;> simp [write, read]

theorem read_write_other (t : Table Key Val) {slot other : Slot} (val : Option Val)
    (apart : other ≠ slot)
    : (t.write slot val).read other = t.read other := by
  cases slot <;> cases other <;> simp_all [write, read, Function.update_of_ne]

variable {t : Table Key Val}

/-- What the search for a free place finds, by induction on where it starts. -/
theorem freeBelow_eq_some {start n : ℕ} (found : t.freeBelow start = some n)
    : n < start ∧ (t.node n).key = none
      ∧ ∀ j, n < j → j < start → (t.node j).key ≠ none := by
  induction start with
  | zero => cases found
  | succ start ih =>
      rw [freeBelow] at found
      split_ifs at found with free
      · cases found
        exact ⟨Nat.lt_succ_self _, by simpa using free, fun j above below => by omega⟩
      · obtain ⟨below, vacant, rest⟩ := ih found
        refine ⟨by omega, vacant, fun j above le => ?_⟩
        rcases Nat.lt_succ_iff_lt_or_eq.mp le with lt | rfl
        · exact rest j above lt
        · simpa using free

theorem freeBelow_eq_none {start : ℕ} (found : t.freeBelow start = none)
    : ∀ j < start, (t.node j).key ≠ none := by
  induction start with
  | zero => exact fun j below => absurd below (Nat.not_lt_zero j)
  | succ start ih =>
      rw [freeBelow] at found
      split_ifs at found with free
      intro j le
      rcases Nat.lt_succ_iff_lt_or_eq.mp le with lt | rfl
      · exact ih found j lt
      · simpa using free

end Table

variable [TableKey Key]

/-- The key has its place in an array part of a size. -/
def InArray (size : ℕ) (key : Key) : Prop :=
  0 < arrayindex key ∧ arrayindex key ≤ size

instance (size : ℕ) (key : Key) : Decidable (InArray size key) :=
  inferInstanceAs (Decidable (_ ∧ _))

theorem toInt_of_arrayindex {key : Key} (positive : 0 < arrayindex key)
    : toInt key = some (arrayindex key) := by
  rw [arrayindex] at positive ⊢
  rcases found : toInt key with _ | n
  · simp [found] at positive
  · rfl

theorem number_arrayindex {key : Key} (positive : 0 < arrayindex key)
    : number (arrayindex key) = key :=
  TableKey.number_toInt key _ (toInt_of_arrayindex positive)

theorem arrayindex_number {n : ℤ} (lower : -2 ^ 31 ≤ n) (upper : n < 2 ^ 31)
    : arrayindex (number n : Key) = n := by
  rw [arrayindex, TableKey.toInt_number n lower upper, Option.getD_some]

namespace Table

/-- The invariant of tables. An element that is not in its main position has been put elsewhere
because of one that is in its own; the elements that a lookup can miss, those whose key
belongs in the array part, are not in the hash part.
-/
structure Valid (t : Table Key Val) : Prop where
  linked : Chain.Linked t.sizenode t.next
  vacant : ∀ i, (t.node i).key = none → t.node i = .empty
  pointed : ∀ i j, t.next i = some j → (t.node j).key ≠ none
  inside : ∀ i, (t.node i).key ≠ none → i < t.sizenode
  reached : ∀ i key, (t.node i).key = some key → Reaches t.next (t.mainposition key) i
  owned
    : ∀ i key, (t.node i).key = some key
      → ∃ owner, (t.node (t.mainposition key)).key = some owner
          ∧ t.mainposition owner = t.mainposition key
  distinct
    : ∀ i j key, (t.node i).key = some key → (t.node j).key = some key → i = j
  apart : ∀ i key, (t.node i).key = some key → ¬ InArray t.sizearray key
  full
    : t.dummy = false → ∀ i, t.lastfree ≤ i → i < t.sizenode → (t.node i).key ≠ none
  unused : t.dummy → t.lastfree = 0 ∧ ∀ i, (t.node i).key = none
  scanned : t.lastfree ≤ t.sizenode
  bounded : ∀ i, t.sizearray ≤ i → t.array i = none
  size_le : t.sizearray ≤ maxasize
  lsizenode_le : t.lsizenode ≤ maxbits

theorem mainposition_lt (t : Table Key Val) (key : Key) : t.mainposition key < t.sizenode :=
  TableKey.mainposition_lt _ _

variable {t : Table Key Val}

/-- A place that names no key has nothing on it. -/
theorem Valid.next_vacant (valid : t.Valid) {i : ℕ} (vacant : (t.node i).key = none)
    : t.next i = none ∧ (t.node i).val = none := by
  rw [next, valid.vacant i vacant]
  exact ⟨rfl, rfl⟩

-----------------------------------------------------------------------------------------
-- New keys
-----------------------------------------------------------------------------------------

/-- The nodes that no key has been put in. -/
def vacancies (t : Table Key Val) : Finset ℕ :=
  (Finset.range t.sizenode).filter fun i => (t.node i).key.isNone

/-- A later table has one more key, at a node, without a value. -/
structure Makes (t later : Table Key Val) (key : Key) (i : ℕ) : Prop where
  valid : later.Valid
  found : (later.node i).key = some key
  fresh : (later.node i).val = none
  sizearray : later.sizearray = t.sizearray
  array : later.array = t.array
  lsizenode : later.lsizenode = t.lsizenode
  notDummy : later.dummy = false
  elements
    : ∀ other val, other ≠ key
      → ((∃ j, (later.node j).key = some other ∧ (later.node j).val = some val)
        ↔ ∃ j, (t.node j).key = some other ∧ (t.node j).val = some val)
  vacancies : t.vacancies.card ≤ later.vacancies.card + 1

/-- A later table with one more key, at a node whose old key had no value. The other keys have
moved with their values, and their chains with them, but no main position has.
-/
structure Rearranges (t later : Table Key Val) (key : Key) (i : ℕ) (moved : Equiv.Perm ℕ)
    : Prop where
  sizearray : later.sizearray = t.sizearray
  array : later.array = t.array
  lsizenode : later.lsizenode = t.lsizenode
  notDummy : later.dummy = false
  within : ∀ j, moved j < t.sizenode ↔ j < t.sizenode
  found : (later.node i).key = some key
  fresh : (later.node i).val = none
  left : (t.node (moved.symm i)).val = none
  others
    : ∀ j, moved j ≠ i
      → (later.node (moved j)).key = (t.node j).key
        ∧ (later.node (moved j)).val = (t.node j).val
  linked : Chain.Linked t.sizenode later.next
  chains : ∀ j k, Reaches t.next j k → Reaches later.next (moved j) (moved k)
  scanned : later.lastfree ≤ t.sizenode
  unlinked : ∀ j, (later.node j).key = none → later.next j = none
  pointed : ∀ j k, later.next j = some k → (later.node k).key ≠ none
  full : ∀ j, later.lastfree ≤ j → j < t.sizenode → (later.node j).key ≠ none
  mains
    : ∀ j other, (t.node j).key = some other
      → moved (t.mainposition other) = t.mainposition other
  reached : Reaches later.next (t.mainposition key) i
  place
    : i = t.mainposition key
      ∨ ((t.node (moved.symm i)).key = none
        ∧ ∃ owner, (t.node (t.mainposition key)).key = some owner
            ∧ t.mainposition owner = t.mainposition key)

/-- A key of the later table is the new one or an old one that has moved. -/
theorem Rearranges.key_cases {later : Table Key Val} {key other : Key} {i j : ℕ}
    {moved : Equiv.Perm ℕ} (rearranges : t.Rearranges later key i moved)
    (found : (later.node j).key = some other)
    : (j = i ∧ other = key)
      ∨ (j ≠ i ∧ (t.node (moved.symm j)).key = some other
        ∧ (later.node j).val = (t.node (moved.symm j)).val) := by
  by_cases new : j = i
  · rw [new, rearranges.found] at found
    exact Or.inl ⟨new, (Option.some.inj found).symm⟩
  · obtain ⟨sameKey, sameVal⟩ := rearranges.others (moved.symm j) (by simpa using new)
    rw [Equiv.apply_symm_apply] at sameKey sameVal
    exact Or.inr ⟨new, sameKey.symm.trans found, sameVal⟩

section

variable {key : Key}

/-- The new key takes its main position, which has no value. -/
theorem Valid.take_main (valid : t.Valid) (notDummy : t.dummy = false)
    (free : (t.node (t.mainposition key)).val = none)
    : t.Rearranges
        { t with
          node := Function.update t.node (t.mainposition key)
            { t.node (t.mainposition key) with key := some key } }
        key (t.mainposition key) (Equiv.refl ℕ) := by
  set mp := t.mainposition key with main
  set later : Table Key Val :=
    { t with node := Function.update t.node mp { t.node mp with key := some key } }
  have here : later.node mp = { t.node mp with key := some key } := Function.update_self _ _ _
  have elsewhere : ∀ i, i ≠ mp → later.node i = t.node i :=
    fun i ne => Function.update_of_ne ne _ _
  have next : later.next = t.next := by
    funext i
    by_cases same : i = mp
    · rw [Table.next, Table.next, same, here]
    · rw [Table.next, Table.next, elsewhere i same]
  have stays : ∀ i, (t.node i).key ≠ none → (later.node i).key ≠ none := by
    intro i some
    by_cases same : i = mp
    · rw [same, here]
      simp
    · rwa [elsewhere i same]
  exact {
    sizearray := rfl
    array := rfl
    lsizenode := rfl
    notDummy := notDummy
    scanned := valid.scanned
    within := fun _ => Iff.rfl
    found := by rw [here]
    fresh := by rw [here]; exact free
    left := free
    others := fun j ne => by rw [Equiv.refl_apply, elsewhere j ne]; exact ⟨rfl, rfl⟩
    linked := next ▸ valid.linked
    chains := fun j k reaches => next ▸ reaches
    unlinked := fun j vacant => by
      by_cases same : j = mp
      · rw [same, here] at vacant
        cases vacant
      · rw [elsewhere j same] at vacant
        rw [next]
        exact (valid.next_vacant vacant).1
    pointed := fun j k named => stays k (valid.pointed j k (next ▸ named))
    full := fun j above below => stays j (valid.full notDummy j above below)
    mains := fun _ _ _ => rfl
    reached := .refl
    place := Or.inl rfl }

variable {n : ℕ} {colliding : Key}

/-- The new key goes to a free place, as the colliding one is in its main position. -/
theorem Valid.link_free (valid : t.Valid) (notDummy : t.dummy = false)
    (inside : n < t.sizenode) (vacant : (t.node n).key = none)
    (above : ∀ j, n < j → j < t.lastfree → (t.node j).key ≠ none)
    (occupied : (t.node (t.mainposition key)).key = some colliding)
    (home : t.mainposition colliding = t.mainposition key)
    : t.Rearranges
        { t with
          lastfree := n
          node := Function.update
            (Function.update t.node n
              { t.node n with key := some key, next := (t.node (t.mainposition key)).next })
            (t.mainposition key) { t.node (t.mainposition key) with next := some n } }
        key n (Equiv.refl ℕ) := by
  set mp := t.mainposition key with main
  have ne : n ≠ mp := by
    intro same
    subst same
    exact absurd (vacant.symm.trans occupied) (by simp)
  obtain ⟨free, valueless⟩ := valid.next_vacant vacant
  have unnamed : ∀ i, t.next i ≠ some n := fun i named => valid.pointed i n named vacant
  set later : Table Key Val :=
    { t with
      lastfree := n
      node := Function.update
        (Function.update t.node n { t.node n with key := some key, next := (t.node mp).next })
        mp { t.node mp with next := some n } }
  have atMain : later.node mp = { t.node mp with next := some n } := Function.update_self _ _ _
  have atFree : later.node n = { t.node n with key := some key, next := (t.node mp).next } := by
    change Function.update _ _ _ _ = _
    rw [Function.update_of_ne ne, Function.update_self]
  have elsewhere : ∀ i, i ≠ mp → i ≠ n → later.node i = t.node i := by
    intro i notMain notFree
    change Function.update _ _ _ _ = _
    rw [Function.update_of_ne notMain, Function.update_of_ne notFree]
  have next : later.next = Chain.insertAfter t.next mp n := by
    funext i
    by_cases isMain : i = mp
    · rw [isMain, Table.next, atMain, Chain.insertAfter_place]
    · by_cases isFree : i = n
      · rw [isFree, Table.next, atFree, Chain.insertAfter_cell ne]
        rfl
      · rw [Table.next, elsewhere i isMain isFree, Chain.insertAfter_other isMain isFree]
        rfl
  have others : ∀ j, j ≠ n → (later.node j).key = (t.node j).key
      ∧ (later.node j).val = (t.node j).val := by
    intro j notFree
    by_cases isMain : j = mp
    · rw [isMain, atMain]
      exact ⟨rfl, rfl⟩
    · rw [elsewhere j isMain notFree]
      exact ⟨rfl, rfl⟩
  have stays : ∀ i, (t.node i).key ≠ none ∨ i = n → (later.node i).key ≠ none := by
    intro i some
    by_cases isFree : i = n
    · rw [isFree, atFree]
      simp
    · rw [(others i isFree).1]
      exact some.resolve_right isFree
  exact {
    sizearray := rfl
    array := rfl
    lsizenode := rfl
    notDummy := notDummy
    scanned := inside.le
    within := fun _ => Iff.rfl
    found := by rw [atFree]
    fresh := by rw [atFree]; exact valueless
    left := valueless
    others := fun j ne => others j ne
    linked := by
      rw [next]
      exact valid.linked.insertAfter ne unnamed free (t.mainposition_lt key) inside
    chains := fun j k reaches => by
      rw [next]
      exact Chain.reaches_insertAfter ne free reaches
    unlinked := fun j none => by
      have notFree : j ≠ n := by
        intro same
        subst same
        exact stays _ (Or.inr rfl) none
      have notMain : j ≠ mp := by
        intro same
        subst same
        exact stays _ (Or.inl (by simp [occupied])) none
      rw [(others j notFree).1] at none
      rw [next, Chain.insertAfter_other notMain notFree]
      exact (valid.next_vacant none).1
    pointed := fun j k named => by
      rw [next] at named
      rcases (Chain.insertAfter_eq_some ne unnamed free).mp named with ⟨_, new⟩ | ⟨_, old⟩
        | ⟨_, _, old⟩
      · exact stays k (Or.inr new)
      · exact stays k (Or.inl (valid.pointed _ k old))
      · exact stays k (Or.inl (valid.pointed _ k old))
    full := fun j le below => by
      rcases Nat.eq_or_lt_of_le (show n ≤ j from le) with rfl | lt
      · exact stays _ (Or.inr rfl)
      · refine stays j (Or.inl ?_)
        by_cases scanned : j < t.lastfree
        · exact above j lt scanned
        · exact valid.full notDummy j (not_lt.mp scanned) below
    mains := fun _ _ _ => rfl
    reached := by
      rw [next]
      exact .single Chain.insertAfter_place
    place := Or.inr ⟨vacant, colliding, occupied, home⟩ }

/-- The new key takes its main position from a colliding one, which moves to a free place. -/
theorem Valid.move_colliding (valid : t.Valid) (notDummy : t.dummy = false)
    (inside : n < t.sizenode) (vacant : (t.node n).key = none)
    (above : ∀ j, n < j → j < t.lastfree → (t.node j).key ≠ none)
    (occupied : (t.node (t.mainposition key)).key = some colliding)
    (away : t.mainposition colliding ≠ t.mainposition key)
    {previous : ℕ} (named : t.next previous = some (t.mainposition key))
    : t.Rearranges
        { t with
          lastfree := n
          node := Function.update
            (Function.update
              (Function.update t.node previous { t.node previous with next := some n }) n
              (t.node (t.mainposition key)))
            (t.mainposition key) ⟨some key, none, none⟩ }
        key (t.mainposition key) (Equiv.swap (t.mainposition key) n) := by
  set mp := t.mainposition key with main
  have ne : n ≠ mp := by
    intro same
    subst same
    exact absurd (vacant.symm.trans occupied) (by simp)
  obtain ⟨free, valueless⟩ := valid.next_vacant vacant
  have unnamed : ∀ i, t.next i ≠ some n := fun i named => valid.pointed i n named vacant
  have notMain : previous ≠ mp := by
    intro same
    subst same
    exact valid.linked.acyclic _ .refl named
  have notFree : previous ≠ n := by
    intro same
    subst same
    exact absurd (free.symm.trans named) (by simp)
  set later : Table Key Val :=
    { t with
      lastfree := n
      node := Function.update
        (Function.update
          (Function.update t.node previous { t.node previous with next := some n }) n
          (t.node mp))
        mp ⟨some key, none, none⟩ }
  have atMain : later.node mp = ⟨some key, none, none⟩ := Function.update_self _ _ _
  have atFree : later.node n = t.node mp := by
    change Function.update _ _ _ _ = _
    rw [Function.update_of_ne ne, Function.update_self]
  have atPrevious : later.node previous = { t.node previous with next := some n } := by
    change Function.update _ _ _ _ = _
    rw [Function.update_of_ne notMain, Function.update_of_ne notFree, Function.update_self]
  have elsewhere : ∀ i, i ≠ mp → i ≠ n → i ≠ previous → later.node i = t.node i := by
    intro i notMain notFree notPrevious
    change Function.update _ _ _ _ = _
    rw [Function.update_of_ne notMain, Function.update_of_ne notFree,
      Function.update_of_ne notPrevious]
  have next : later.next = Chain.rename (Equiv.swap mp n) t.next := by
    rw [← valid.linked.move_eq named ne unnamed free]
    funext i
    by_cases isMain : i = mp
    · rw [isMain, Table.next, atMain, Chain.move, Function.update_self]
    by_cases isFree : i = n
    · rw [isFree, Table.next, atFree, Chain.move, Function.update_of_ne ne, Function.update_self]
      rfl
    by_cases isPrevious : i = previous
    · rw [isPrevious, Table.next, atPrevious, Chain.move, Function.update_of_ne notMain,
        Function.update_of_ne notFree, Function.update_self]
    · rw [Table.next, elsewhere i isMain isFree isPrevious, Chain.move,
        Function.update_of_ne isMain, Function.update_of_ne isFree,
        Function.update_of_ne isPrevious]
      rfl
  have outside : ∀ j, j ≠ mp → j ≠ n → (later.node j).key = (t.node j).key
      ∧ (later.node j).val = (t.node j).val := by
    intro j isMain isFree
    by_cases isPrevious : j = previous
    · rw [isPrevious, atPrevious]
      exact ⟨rfl, rfl⟩
    · rw [elsewhere j isMain isFree isPrevious]
      exact ⟨rfl, rfl⟩
  have stays : ∀ i, (t.node i).key ≠ none ∨ i = n → (later.node i).key ≠ none := by
    intro i some
    by_cases isMain : i = mp
    · rw [isMain, atMain]
      simp
    by_cases isFree : i = n
    · rw [isFree, atFree, occupied]
      simp
    · rw [(outside i isMain isFree).1]
      exact some.resolve_right isFree
  exact {
    sizearray := rfl
    array := rfl
    lsizenode := rfl
    notDummy := notDummy
    scanned := inside.le
    within := fun j => by
      have mainInside := t.mainposition_lt key
      by_cases isMain : j = mp
      · rw [isMain, Equiv.swap_apply_left]
        exact iff_of_true inside mainInside
      by_cases isFree : j = n
      · rw [isFree, Equiv.swap_apply_right]
        exact iff_of_true mainInside inside
      · rw [Equiv.swap_apply_of_ne_of_ne isMain isFree]
    found := by rw [atMain]
    fresh := by rw [atMain]
    left := by
      rw [Equiv.symm_swap, Equiv.swap_apply_left]
      exact valueless
    others := fun j notNew => by
      by_cases isMain : j = mp
      · rw [isMain, Equiv.swap_apply_left, atFree]
        exact ⟨rfl, rfl⟩
      · have isFree : j ≠ n := by
          intro same
          subst same
          exact notNew (Equiv.swap_apply_right _ _)
        rw [Equiv.swap_apply_of_ne_of_ne isMain isFree]
        exact outside j isMain isFree
    linked := by
      rw [next]
      refine valid.linked.rename fun j => ?_
      intro lt
      rw [Equiv.symm_swap] at lt
      by_cases isMain : j = mp
      · rw [isMain]
        exact t.mainposition_lt key
      by_cases isFree : j = n
      · rw [isFree]
        exact inside
      · rwa [Equiv.swap_apply_of_ne_of_ne isMain isFree] at lt
    chains := fun j k reaches => by
      rw [next]
      exact Chain.reaches_rename reaches
    unlinked := fun j none => by
      have isMain : j ≠ mp := by
        intro same
        subst same
        exact stays _ (Or.inl (by simp [occupied])) none
      have isFree : j ≠ n := by
        intro same
        subst same
        exact stays _ (Or.inr rfl) none
      have isPrevious : j ≠ previous := by
        intro same
        subst same
        rw [(outside j isMain isFree).1] at none
        exact absurd ((valid.next_vacant none).1.symm.trans named) (by simp)
      rw [(outside j isMain isFree).1] at none
      rw [Table.next, elsewhere j isMain isFree isPrevious]
      exact (valid.next_vacant none).1
    pointed := fun j k link => by
      rw [next, Chain.rename_eq_some, Equiv.symm_swap] at link
      have old := valid.pointed _ _ link
      by_cases isMain : k = mp
      · exact stays k (Or.inl (by simp [isMain, occupied]))
      by_cases isFree : k = n
      · exact stays k (Or.inr isFree)
      · rw [Equiv.swap_apply_of_ne_of_ne isMain isFree] at old
        exact stays k (Or.inl old)
    full := fun j le below => by
      rcases Nat.eq_or_lt_of_le (show n ≤ j from le) with rfl | lt
      · exact stays _ (Or.inr rfl)
      · refine stays j (Or.inl ?_)
        by_cases scanned : j < t.lastfree
        · exact above j lt scanned
        · exact valid.full notDummy j (not_lt.mp scanned) below
    mains := fun j other found => by
      obtain ⟨owner, foundOwner, same⟩ := valid.owned j other found
      refine Equiv.swap_apply_of_ne_of_ne ?_ ?_
      · intro isMain
        rw [isMain, occupied] at foundOwner
        cases foundOwner
        exact away (same.trans isMain)
      · intro isFree
        rw [isFree, vacant] at foundOwner
        cases foundOwner
    reached := .refl
    place := Or.inl rfl }

end

variable [DecidableEq Key]

/-- The loop over its chain finds a key where it is. -/
theorem Valid.chain_eq_some (valid : t.Valid) {key : Key} {i : ℕ}
    : t.chain key = some i ↔ (t.node i).key = some key := by
  rw [chain, valid.linked.find_eq_some (t.mainposition_lt key)]
  · rw [decide_eq_true_eq]
    exact and_iff_right_of_imp (valid.reached i key)
  · intro k l first second
    exact valid.distinct k l key (by simpa using first) (by simpa using second)

theorem luaHGetnum_number {n : ℤ} (key : Key) (isInt : toInt key = some n)
    : t.luaHGetnum n
      = if InArray t.sizearray key then some (.array (n - 1).toNat)
        else (t.chain key).map .node := by
  have inArray : InArray t.sizearray key ↔ 1 ≤ n ∧ n ≤ t.sizearray := by
    rw [InArray, arrayindex, isInt, Option.getD_some]
    exact Iff.rfl
  rw [luaHGetnum, TableKey.number_toInt key n isInt]
  simp only [inArray]

/-- A lookup goes to the array part exactly for the keys of that part. -/
theorem luaHGet_eq (t : Table Key Val) (key : Key)
    : t.luaHGet key
      = if InArray t.sizearray key then some (.array (arrayindex key - 1).toNat)
        else (t.chain key).map .node := by
  rw [luaHGet]
  rcases isInt : toInt key with _ | n
  · rw [if_neg]
    intro holds
    obtain ⟨positive, _⟩ := holds
    exact absurd (isInt.symm.trans (toInt_of_arrayindex positive)) (by simp)
  · have index : arrayindex key = n := by rw [arrayindex, isInt, Option.getD_some]
    rw [index]
    exact luaHGetnum_number key isInt

theorem Valid.luaHGet_node (valid : t.Valid) {key : Key} {i : ℕ}
    : t.luaHGet key = some (.node i) ↔ (t.node i).key = some key := by
  rw [luaHGet_eq]
  split_ifs with inArray
  · refine iff_of_false (by simp) fun found => ?_
    exact valid.apart i key found inArray
  · rw [Option.map_eq_some_iff]
    simp only [Slot.node.injEq, exists_eq_right, valid.chain_eq_some]

theorem luaHGet_array {key : Key} {i : ℕ}
    : t.luaHGet key = some (.array i)
      ↔ InArray t.sizearray key ∧ i = (arrayindex key - 1).toNat := by
  rw [luaHGet_eq]
  split_ifs with inArray
  · simp [inArray, eq_comm]
  · simp [inArray]

/-- Keys have slots of their own. -/
theorem Valid.luaHGet_inj (valid : t.Valid) {key other : Key} {slot : Slot}
    (first : t.luaHGet key = some slot) (second : t.luaHGet other = some slot)
    : key = other := by
  cases slot with
  | node i =>
      rw [valid.luaHGet_node] at first second
      exact Option.some.inj (first.symm.trans second)
  | array i =>
      obtain ⟨⟨positive, _⟩, index⟩ := luaHGet_array.mp first
      obtain ⟨⟨positive', _⟩, index'⟩ := luaHGet_array.mp second
      have same : arrayindex key = arrayindex other := by omega
      rw [← number_arrayindex positive, same, number_arrayindex positive']

-----------------------------------------------------------------------------------------
-- Assigning to a slot
-----------------------------------------------------------------------------------------

theorem write_luaHGet (t : Table Key Val) (slot : Slot) (val : Option Val) (key : Key)
    : (t.write slot val).luaHGet key = t.luaHGet key := by
  obtain ⟨sizearray, lsizenode, _, _⟩ := t.write_fields slot val
  rw [luaHGet_eq, luaHGet_eq, chain, chain, write_next, sizearray, sizenode, sizenode,
    mainposition, mainposition, lsizenode]
  simp only [write_key]

/-- A slot that a key has. -/
def Has (t : Table Key Val) (slot : Slot) : Prop :=
  ∃ key, t.luaHGet key = some slot

/-- Writing a value to the slot of a key keeps the invariant. -/
theorem Valid.write (valid : t.Valid) {slot : Slot} (has : t.Has slot) (val : Option Val)
    : (t.write slot val).Valid := by
  obtain ⟨sizearray, lsizenode, dummy, lastfree⟩ := t.write_fields slot val
  have sizenode : (t.write slot val).sizenode = t.sizenode := by
    rw [Table.sizenode, Table.sizenode, lsizenode]
  have mainposition : (t.write slot val).mainposition = t.mainposition := by
    funext key
    rw [Table.mainposition, Table.mainposition, lsizenode]
  constructor
  case linked => simpa only [sizenode, write_next] using valid.linked
  case vacant =>
    intro i vacant
    rw [write_key] at vacant
    rw [← valid.vacant i vacant]
    cases slot with
    | array => rfl
    | node j =>
        obtain ⟨key, found⟩ := has
        rw [valid.luaHGet_node] at found
        refine Function.update_of_ne ?_ _ _
        intro same
        subst same
        exact absurd (vacant.symm.trans found) (by simp)
  case pointed => simpa only [write_next, write_key] using valid.pointed
  case inside => simpa only [sizenode, write_key] using valid.inside
  case reached => simpa only [write_next, write_key, mainposition] using valid.reached
  case owned => simpa only [write_key, mainposition] using valid.owned
  case distinct => simpa only [write_key] using valid.distinct
  case apart => simpa only [write_key, sizearray] using valid.apart
  case full => simpa only [dummy, lastfree, sizenode, write_key] using valid.full
  case unused => simpa only [dummy, lastfree, write_key] using valid.unused
  case scanned => simpa only [lastfree, sizenode] using valid.scanned
  case bounded =>
    intro i outside
    rw [sizearray] at outside
    rw [← valid.bounded i outside]
    cases slot with
    | node => rfl
    | array j =>
        obtain ⟨key, found⟩ := has
        obtain ⟨⟨positive, le⟩, index⟩ := luaHGet_array.mp found
        exact Function.update_of_ne (by omega) _ _
  case size_le => simpa only [sizearray] using valid.size_le
  case lsizenode_le => simpa only [lsizenode] using valid.lsizenode_le

/-- Writing changes the value under one key. -/
theorem Valid.lookup_write (valid : t.Valid) {key : Key} {slot : Slot}
    (found : t.luaHGet key = some slot) (val : Option Val) (other : Key)
    : (t.write slot val).lookup other = if other = key then val else t.lookup other := by
  rw [lookup, write_luaHGet]
  split_ifs with same
  · rw [same, found, Option.bind_some, read_write_self]
  · rw [lookup]
    rcases found' : t.luaHGet other with _ | slot'
    · rfl
    · rw [Option.bind_some, Option.bind_some, read_write_other]
      intro same
      subst same
      exact same (valid.luaHGet_inj found' found)

/-- Where the value of a key is. -/
theorem Valid.lookup_eq_some (valid : t.Valid) {key : Key} {val : Val}
    : t.lookup key = some val
      ↔ (InArray t.sizearray key ∧ t.array (arrayindex key - 1).toNat = some val)
        ∨ ∃ i, (t.node i).key = some key ∧ (t.node i).val = some val := by
  rw [lookup, luaHGet_eq]
  split_ifs with inArray
  · rw [Option.bind_some, read]
    refine ⟨fun found => Or.inl ⟨inArray, found⟩, ?_⟩
    intro given
    rcases given with ⟨_, found⟩ | ⟨i, found, _⟩
    · exact found
    · exact absurd inArray (valid.apart i key found)
  · simp only [inArray, false_and, false_or, Option.bind_eq_some_iff, Option.map_eq_some_iff]
    constructor
    · intro given
      obtain ⟨_, ⟨i, found, rfl⟩, holds⟩ := given
      exact ⟨i, valid.chain_eq_some.mp found, holds⟩
    · intro given
      obtain ⟨i, found, holds⟩ := given
      exact ⟨.node i, ⟨i, valid.chain_eq_some.mpr found, rfl⟩, holds⟩

/-- A key without a slot is nowhere. -/
theorem Valid.luaHGet_eq_none (valid : t.Valid) {key : Key}
    : t.luaHGet key = none
      ↔ ¬ InArray t.sizearray key ∧ ∀ i, (t.node i).key ≠ some key := by
  rw [luaHGet_eq]
  split_ifs with inArray
  · simp [inArray]
  · rw [Option.map_eq_none_iff, Option.eq_none_iff_forall_ne_some]
    simp only [inArray, not_false_eq_true, true_and, ne_eq, valid.chain_eq_some]

/-- So rearranged, a table is as valid as before. Witness: what was found from its main position
is found from it where it has moved to.
-/
theorem Rearranges.makes {later : Table Key Val} {key : Key} {i : ℕ} {moved : Equiv.Perm ℕ}
    (rearranges : t.Rearranges later key i moved) (valid : t.Valid)
    (absent : t.luaHGet key = none)
    : t.Makes later key i := by
  obtain ⟨notInArray, nowhere⟩ := valid.luaHGet_eq_none.mp absent
  have sizenode : later.sizenode = t.sizenode := by
    rw [Table.sizenode, Table.sizenode, rearranges.lsizenode]
  have main : later.mainposition = t.mainposition := by
    funext other
    rw [Table.mainposition, Table.mainposition, rearranges.lsizenode]
  have owner : ∀ p owner, (t.node p).key = some owner → t.mainposition owner = p →
      ∃ owner, (later.node p).key = some owner ∧ t.mainposition owner = p := by
    intro p owner found same
    have fixed : moved p = p := same ▸ rearranges.mains p owner found
    by_cases new : p = i
    · rcases rearranges.place with atMain | ⟨vacant, _⟩
      · exact ⟨key, new ▸ rearranges.found, (new.trans atMain).symm⟩
      · have here : moved.symm i = p := by rw [← new, Equiv.symm_apply_eq, fixed]
        rw [here, found] at vacant
        cases vacant
    · obtain ⟨sameKey, _⟩ := rearranges.others p (by rw [fixed]; exact new)
      rw [fixed] at sameKey
      exact ⟨owner, sameKey.trans found, same⟩
  have validLater : later.Valid := by
    constructor
    case linked => exact sizenode ▸ rearranges.linked
    case vacant =>
      intro j vacant
      have new : j ≠ i := by
        intro same
        subst same
        exact absurd (vacant.symm.trans rearranges.found) (by simp)
      obtain ⟨sameKey, sameVal⟩ := rearranges.others (moved.symm j) (by simpa using new)
      rw [Equiv.apply_symm_apply] at sameKey sameVal
      have none := valid.next_vacant (sameKey.symm.trans vacant)
      have unlinked : (later.node j).next = Option.none := rearranges.unlinked j vacant
      rw [← show (⟨(later.node j).key, (later.node j).val, (later.node j).next⟩ : Node Key Val)
        = later.node j from rfl, vacant, sameVal.trans none.2, unlinked]
      rfl
    case pointed => exact rearranges.pointed
    case inside =>
      intro j some
      obtain ⟨other, found⟩ := Option.ne_none_iff_exists'.mp some
      rw [sizenode]
      rcases rearranges.key_cases found with ⟨rfl, rfl⟩ | ⟨_, old, _⟩
      · exact rearranges.linked.reaches_lt rearranges.reached (t.mainposition_lt other)
      · have inside := valid.inside (moved.symm j) (by simp [old])
        rwa [← rearranges.within, Equiv.apply_symm_apply] at inside
    case reached =>
      intro j other found
      rw [main]
      rcases rearranges.key_cases found with ⟨rfl, rfl⟩ | ⟨_, old, _⟩
      · exact rearranges.reached
      · have chain := rearranges.chains _ _ (valid.reached _ other old)
        rwa [rearranges.mains _ other old, Equiv.apply_symm_apply] at chain
    case owned =>
      intro j other found
      rw [main]
      rcases rearranges.key_cases found with ⟨rfl, rfl⟩ | ⟨_, old, _⟩
      · rcases rearranges.place with atMain | ⟨_, q, foundOwner, same⟩
        · exact ⟨other, atMain ▸ found, rfl⟩
        · exact owner _ q foundOwner same
      · obtain ⟨q, foundOwner, same⟩ := valid.owned _ other old
        exact owner _ q foundOwner same
    case distinct =>
      intro j k other first second
      rcases rearranges.key_cases first with ⟨rfl, rfl⟩ | ⟨_, old, _⟩ <;>
        rcases rearranges.key_cases second with ⟨rfl, new⟩ | ⟨_, old', _⟩
      · rfl
      · exact absurd old' (nowhere _)
      · exact absurd (new ▸ old) (nowhere _)
      · exact moved.symm.injective (valid.distinct _ _ other old old')
    case apart =>
      intro j other found
      rw [rearranges.sizearray]
      rcases rearranges.key_cases found with ⟨_, rfl⟩ | ⟨_, old, _⟩
      · exact notInArray
      · exact valid.apart _ other old
    case full =>
      intro _ j above below
      exact rearranges.full j above (sizenode ▸ below)
    case unused =>
      intro dummy
      exact absurd (rearranges.notDummy.symm.trans dummy) (by simp)
    case scanned => exact sizenode ▸ rearranges.scanned
    case bounded =>
      rw [rearranges.sizearray, rearranges.array]
      exact valid.bounded
    case size_le =>
      rw [rearranges.sizearray]
      exact valid.size_le
    case lsizenode_le =>
      rw [rearranges.lsizenode]
      exact valid.lsizenode_le
  refine ⟨validLater, rearranges.found, rearranges.fresh, rearranges.sizearray,
    rearranges.array, rearranges.lsizenode, rearranges.notDummy, ?_, ?_⟩
  · intro other val ne
    constructor
    · intro given
      obtain ⟨j, found, holds⟩ := given
      rcases rearranges.key_cases found with ⟨_, same⟩ | ⟨_, old, sameVal⟩
      · exact absurd same ne
      · exact ⟨moved.symm j, old, sameVal.symm.trans holds⟩
    · intro given
      obtain ⟨j, found, holds⟩ := given
      have new : moved j ≠ i := by
        intro same
        subst same
        have left := rearranges.left
        rw [Equiv.symm_apply_apply] at left
        exact absurd (left.symm.trans holds) (by simp)
      obtain ⟨sameKey, sameVal⟩ := rearranges.others j new
      exact ⟨moved j, sameKey.trans found, sameVal.trans holds⟩
  · rw [← Finset.card_image_of_injective t.vacancies moved.injective]
    refine (Finset.card_le_card ?_).trans (Finset.card_insert_le i _)
    intro j member
    obtain ⟨k, vacant, rfl⟩ := Finset.mem_image.mp member
    rw [Table.vacancies, Finset.mem_filter, Finset.mem_range] at vacant
    rw [Finset.mem_insert, Table.vacancies, Finset.mem_filter, Finset.mem_range, sizenode,
      rearranges.within]
    by_cases new : moved k = i
    · exact Or.inl new
    · exact Or.inr ⟨vacant.1, by rw [(rearranges.others k new).1]; exact vacant.2⟩

theorem Makes.luaHGet {later : Table Key Val} {key : Key} {i : ℕ}
    (makes : t.Makes later key i)
    : later.luaHGet key = some (.node i) :=
  makes.valid.luaHGet_node.mpr makes.found

/-- A new key changes no value. -/
theorem Makes.lookup {later : Table Key Val} {key : Key} {i : ℕ}
    (makes : t.Makes later key i) (valid : t.Valid) (absent : t.luaHGet key = none)
    : later.lookup = t.lookup := by
  funext other
  by_cases same : other = key
  · rw [same, Table.lookup, Table.lookup, makes.luaHGet, absent]
    exact makes.fresh
  · refine Option.ext fun val => ?_
    rw [makes.valid.lookup_eq_some, valid.lookup_eq_some, makes.sizearray, makes.array,
      makes.elements other val same]

/-- How many keys still find a free place. -/
def room (t : Table Key Val) : ℕ :=
  if t.dummy then 0 else t.vacancies.card

omit [DecidableEq Key] in
theorem Makes.room {later : Table Key Val} {key : Key} {i : ℕ} (makes : t.Makes later key i)
    : t.room ≤ later.room + 1 := by
  have notDummy : ¬ later.dummy := by simp [makes.notDummy]
  rw [Table.room, Table.room, if_neg notDummy]
  split_ifs
  · exact Nat.zero_le _
  · exact makes.vacancies

omit [DecidableEq Key] in
/-- Where the search for a free place finds none, there is no room. -/
theorem Valid.room_eq_zero (valid : t.Valid) (search : t.freeBelow t.lastfree = none)
    : t.room = 0 := by
  rw [room]
  split_ifs with dummy
  · rfl
  · rw [Finset.card_eq_zero, Finset.eq_empty_iff_forall_notMem]
    intro i member
    rw [vacancies, Finset.mem_filter, Finset.mem_range, Option.isNone_iff_eq_none] at member
    by_cases scanned : i < t.lastfree
    · exact freeBelow_eq_none search i scanned member.2
    · exact valid.full (by simpa using dummy) i (not_lt.mp scanned) member.1 member.2

/-- Everything `newkey` can do with a key that is not in the table: it makes it, or asks for a
larger table as there is no room.
-/
theorem Valid.newkey_cases (valid : t.Valid) {key : Key} (absent : t.luaHGet key = none)
    (grow : Setter Key Val)
    : (t.dummy = false
        ∧ ∃ later i, newkey grow t key = .ok (later, .node i) ∧ t.Makes later key i)
      ∨ (newkey grow t key = grow { t with lastfree := 0 } key ∧ t.room = 0
        ∧ ({ t with lastfree := 0 } : Table Key Val).Valid) := by
  by_cases busy : (t.node (t.mainposition key)).val.isSome || t.dummy
  · rcases search : t.freeBelow t.lastfree with _ | n
    · have full := freeBelow_eq_none search
      refine Or.inr ⟨?_, valid.room_eq_zero search, { valid with
        full := ?_
        unused := fun dummy => ⟨rfl, (valid.unused dummy).2⟩
        scanned := Nat.zero_le _ }⟩
      · rw [newkey, if_pos busy, getfreepos, search]
        rfl
      · intro notDummy i _ below
        by_cases scanned : i < t.lastfree
        · exact full i scanned
        · exact valid.full notDummy i (not_lt.mp scanned) below
    · obtain ⟨below, vacant, above⟩ := freeBelow_eq_some search
      have inside : n < t.sizenode := below.trans_le valid.scanned
      have notDummy : t.dummy = false := by
        by_contra dummy
        rw [(valid.unused (by simpa using dummy)).1] at below
        exact Nat.not_lt_zero n below
      obtain ⟨val, holds⟩ : ∃ val, (t.node (t.mainposition key)).val = some val :=
        Option.isSome_iff_exists.mp (by simpa [notDummy] using busy)
      obtain ⟨colliding, occupied⟩
          : ∃ colliding, (t.node (t.mainposition key)).key = some colliding := by
        rw [← Option.ne_none_iff_exists']
        intro none
        exact absurd ((valid.next_vacant none).2.symm.trans holds) (by simp)
      by_cases home : t.mainposition colliding = t.mainposition key
      · refine Or.inl ⟨notDummy, _, n, ?_,
          (valid.link_free notDummy inside vacant above occupied home).makes valid absent⟩
        rw [newkey, if_pos busy, getfreepos, search]
        simp only [occupied, home, if_true]
        rfl
      · obtain ⟨previous, found, named⟩ := valid.linked.find_previous
          (t.mainposition_lt colliding) (valid.reached _ _ occupied) home
        refine Or.inl ⟨notDummy, _, _, ?_,
          (valid.move_colliding notDummy inside vacant above occupied home named).makes valid
            absent⟩
        rw [newkey, if_pos busy, getfreepos, search]
        simp only [occupied, home, if_false, found]
        rfl
  · obtain ⟨free, notDummy⟩ := not_or.mp (mt (Bool.or_eq_true _ _).mpr busy)
    refine Or.inl ⟨by simpa using notDummy, _, _, ?_,
      (valid.take_main (by simpa using notDummy) (by simpa using free)).makes valid absent⟩
    rw [newkey, if_neg busy]

end Table

end Labrea.LuaTable
