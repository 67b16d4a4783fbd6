import Mathlib.Algebra.Order.Ring.Int
import Mathlib.Data.Nat.Log
import Labrea.Library.Chain

/-! The tables of the bundled Lua, as `ltable.c` keeps them: an array part for the first
positive integers, and a hash part, a chained scatter table with Brent's variation.
-/

namespace Labrea.LuaTable

-----------------------------------------------------------------------------------------
-- Keys
-----------------------------------------------------------------------------------------

/-- What a table asks of its keys, nil and NaN apart: `toInt` is the `int` a number key is equal
to, `number` the number key of an `int`, and `mainposition` the place that the hash gives a key
in a hash part of `2 ^ lsizenode` nodes.
-/
class TableKey (Key : Type) where
  toInt : Key → Option ℤ
  number : ℤ → Key
  mainposition : ℕ → Key → ℕ
  number_toInt : ∀ key n, toInt key = some n → number n = key
  toInt_number : ∀ n, -2 ^ 31 ≤ n → n < 2 ^ 31 → toInt (number n) = some n
  mainposition_lt : ∀ lsizenode key, mainposition lsizenode key < 2 ^ lsizenode

/-- The bits of an integral double. -/
def doubleBits (n : ℤ) : ℕ :=
  let magnitude := n.natAbs
  let exponent := Nat.log2 magnitude
  let significand :=
    if exponent ≤ 52 then magnitude <<< (52 - exponent) else magnitude >>> (exponent - 52)
  (if n < 0 then 2 ^ 63 else 0) + (exponent + 1023) * 2 ^ 52 + (significand - 2 ^ 52)

/-- `hashnum`: the sum of the two halves of the double, modulo an odd number. -/
def hashnum (lsizenode : ℕ) (n : ℤ) : ℕ :=
  if n = 0 then 0
  else (doubleBits n + doubleBits n / 2 ^ 32) % 2 ^ 32 % ((2 ^ lsizenode - 1) ||| 1)

theorem hashnum_lt (lsizenode : ℕ) (n : ℤ) : hashnum lsizenode n < 2 ^ lsizenode := by
  have odd : 0 < (2 ^ lsizenode - 1) ||| 1 := Nat.one_pos.trans_le Nat.right_le_or
  rw [hashnum]
  split_ifs
  · exact Nat.two_pow_pos lsizenode
  · rcases lsizenode with _ | lsizenode
    · exact Nat.mod_lt _ odd
    · have room : 2 ^ (lsizenode + 1) = 2 * 2 ^ lsizenode := Nat.pow_succ'
      have positive := Nat.two_pow_pos lsizenode
      exact (Nat.mod_lt _ odd).trans (Nat.or_lt_two_pow (by omega) (by omega))

/-- Whole numbers as keys. -/
instance : TableKey ℤ where
  toInt n := if -2 ^ 31 ≤ n ∧ n < 2 ^ 31 then some n else none
  number n := n
  mainposition := hashnum
  number_toInt key n found := by
    split_ifs at found
    exact (Option.some.inj found).symm
  toInt_number n lower upper := if_pos ⟨lower, upper⟩
  mainposition_lt := hashnum_lt

open TableKey (toInt number)

-----------------------------------------------------------------------------------------
-- Tables
-----------------------------------------------------------------------------------------

/-- A node of the hash part; a key or a value that is nil is `none`. -/
structure Node (Key Val : Type) where
  key : Option Key
  val : Option Val
  next : Option ℕ

def Node.empty {Key Val : Type} : Node Key Val := ⟨none, none, none⟩

/-- The element in a node, if it has one. -/
def Node.element {Key Val : Type} (node : Node Key Val) : Option (Key × Val) :=
  match node.key, node.val with
  | some key, some val => some (key, val)
  | _, _ => none

/-- A `Table`, without its metatable. `dummy` says that `node` is the common `dummynode`; a node
is named by its index, and so is the value slot of an element.
-/
structure Table (Key Val : Type) where
  sizearray : ℕ
  array : ℕ → Option Val
  lsizenode : ℕ
  dummy : Bool
  node : ℕ → Node Key Val
  lastfree : ℕ

/-- A pointer to a value in a table. -/
inductive Slot where
  | array (i : ℕ)
  | node (i : ℕ)
  deriving DecidableEq, Repr

/-- "table overflow", "invalid key to 'next'", a null pointer followed, and a rehash inside the
insertions of a rehash.
-/
inductive Failure where
  | overflow
  | invalidKey
  | undefined
  | nested
  deriving DecidableEq, Repr

/-- `MAXBITS` -/
def maxbits : ℕ := 26

/-- `MAXASIZE` -/
def maxasize : ℕ := 2 ^ maxbits

/-- `MAX_INT` -/
def maxInt : ℕ := 2 ^ 31 - 3

/-- The table `log_2` of `luaO_log2`. -/
def log2Table : List ℕ :=
  [0, 1, 2, 2] ++ List.replicate 4 3 ++ List.replicate 8 4 ++ List.replicate 16 5
    ++ List.replicate 32 6 ++ List.replicate 64 7 ++ List.replicate 128 8

/-- The loop of `luaO_log2`, which takes a byte off an `unsigned int` at most three times. -/
def luaOLog2From : ℕ → ℤ → ℕ → ℤ
  | 0, l, x => l + log2Table.getD x 0
  | steps + 1, l, x =>
      if 256 ≤ x then luaOLog2From steps (l + 8) (x >>> 8) else l + log2Table.getD x 0

def luaOLog2 (x : ℕ) : ℤ :=
  luaOLog2From 3 (-1) x

def ceillog2 (x : ℕ) : ℕ :=
  (luaOLog2 (x - 1) + 1).toNat

section

variable {Key Val : Type} [TableKey Key]

/-- `arrayindex` -/
def arrayindex (key : Key) : ℤ :=
  (toInt key).getD (-1)

namespace Table

/-- `sizenode` -/
def sizenode (t : Table Key Val) : ℕ :=
  2 ^ t.lsizenode

/-- `gnext` -/
def next (t : Table Key Val) (i : ℕ) : Option ℕ :=
  (t.node i).next

def mainposition (t : Table Key Val) (key : Key) : ℕ :=
  TableKey.mainposition t.lsizenode key

def read (t : Table Key Val) : Slot → Option Val
  | .array i => t.array i
  | .node i => (t.node i).val

/-- `setobj` to a value of the table. -/
def write (t : Table Key Val) (slot : Slot) (val : Option Val) : Table Key Val :=
  match slot with
  | .array i => { t with array := Function.update t.array i val }
  | .node i => { t with node := Function.update t.node i { t.node i with val := val } }

def setarrayvector (t : Table Key Val) (size : ℕ) : Table Key Val :=
  { t with
    array := fun i => if i < t.sizearray ∧ i < size then t.array i else none
    sizearray := size }

def setnodevector (t : Table Key Val) (size : ℕ) : Except Failure (Table Key Val) :=
  if size = 0 then
    .ok { t with node := fun _ => .empty, dummy := true, lsizenode := 0, lastfree := 0 }
  else if maxbits < ceillog2 size then
    .error .overflow
  else
    .ok { t with
      node := fun _ => .empty
      dummy := false
      lsizenode := ceillog2 size
      lastfree := 2 ^ ceillog2 size }

/-- `luaH_new` -/
def luaHNew (narray nhash : ℕ) : Except Failure (Table Key Val) :=
  let t : Table Key Val := ⟨0, fun _ => none, 0, true, fun _ => .empty, 0⟩
  (t.setarrayvector narray).setnodevector nhash

-----------------------------------------------------------------------------------------
-- Reading
-----------------------------------------------------------------------------------------

variable [DecidableEq Key]

/-- The loop over the chain of a key, in the hash part. -/
def chain (t : Table Key Val) (key : Key) : Option ℕ :=
  Chain.find t.next (fun i => (t.node i).key = some key) t.sizenode (t.mainposition key)

/-- `luaH_getnum`; a missing element is `luaO_nilobject`. -/
def luaHGetnum (t : Table Key Val) (n : ℤ) : Option Slot :=
  if 1 ≤ n ∧ n ≤ t.sizearray then some (.array (n - 1).toNat)
  else (t.chain (number n)).map .node

/-- `luaH_get` -/
def luaHGet (t : Table Key Val) (key : Key) : Option Slot :=
  match toInt key with
  | some n => t.luaHGetnum n
  | none => (t.chain key).map .node

/-- The value under a key. -/
def lookup (t : Table Key Val) (key : Key) : Option Val :=
  (t.luaHGet key).bind t.read

/-- `findindex`: the place of a key in a traversal, which begins before the first place. -/
def findindex (t : Table Key Val) : Option Key → Except Failure ℤ
  | none => .ok (-1)
  | some key =>
      if 0 < arrayindex key ∧ arrayindex key ≤ t.sizearray then .ok (arrayindex key - 1)
      else
        match t.chain key with
        | some i => .ok (i + t.sizearray)
        | none => .error .invalidKey

/-- The element at a place of a traversal. -/
def entryAt (t : Table Key Val) (place : ℕ) : Option (Key × Val) :=
  if place < t.sizearray then (t.array place).map fun val => (number (place + 1), val)
  else (t.node (place - t.sizearray)).element

/-- `luaH_next`: the first element after the place of a key, in the array and then the hash
part.
-/
def luaHNext (t : Table Key Val) (key : Option Key) : Except Failure (Option (Key × Val)) := do
  let i ← t.findindex key
  let first := (i + 1).toNat
  pure ((List.range' first (t.sizearray + t.sizenode - first)).findSome? t.entryAt)

-----------------------------------------------------------------------------------------
-- Inserting
-----------------------------------------------------------------------------------------

/-- The search of `getfreepos`, downwards. -/
def freeBelow (t : Table Key Val) : ℕ → Option ℕ
  | 0 => none
  | i + 1 => if (t.node i).key.isNone then some i else t.freeBelow i

def getfreepos (t : Table Key Val) : Table Key Val × Option ℕ :=
  let free := t.freeBelow t.lastfree
  ({ t with lastfree := free.getD 0 }, free)

/-- A function that finds or makes the slot of a key. -/
abbrev Setter (Key Val : Type) :=
  Table Key Val → Key → Except Failure (Table Key Val × Slot)

/-- `newkey`, where `grow` is what it does when no place is free. -/
def newkey (grow : Setter Key Val) : Setter Key Val := fun t key =>
  let mp := t.mainposition key
  if (t.node mp).val.isSome || t.dummy then
    match t.getfreepos with
    | (scanned, none) => grow scanned key
    | (scanned, some n) =>
        match (t.node mp).key with
        | none => .error .undefined
        | some colliding =>
            if t.mainposition colliding = mp then
              -- The colliding node is in its main position: the key goes to the free place.
              .ok ({ scanned with
                node := Function.update
                  (Function.update t.node n
                    { t.node n with key := some key, next := (t.node mp).next })
                  mp { t.node mp with next := some n } }, .node n)
            else
              -- It is not: it moves to the free place, and the key goes to its main position.
              match Chain.find t.next (fun i => t.next i = some mp) t.sizenode
                (t.mainposition colliding) with
              | none => .error .undefined
              | some previous =>
                  .ok ({ scanned with
                    node := Function.update
                      (Function.update
                        (Function.update t.node previous
                          { t.node previous with next := some n }) n
                        (t.node mp))
                      mp ⟨some key, none, none⟩ }, .node mp)
  else
    .ok ({ t with node := Function.update t.node mp { t.node mp with key := some key } },
      .node mp)

/-- Puts an element in its slot. -/
def put (set : Setter Key Val) (t : Table Key Val) (element : Key × Val)
    : Except Failure (Table Key Val) := do
  let (t, slot) ← set t element.1
  pure (t.write slot (some element.2))

/-- The elements of the array part from one size on, which a smaller array has no place for. -/
def vanishing (t : Table Key Val) (nasize : ℕ) : List (Key × Val) :=
  (List.range' nasize (t.sizearray - nasize)).filterMap fun i =>
    (t.array i).map fun val => (number (i + 1), val)

/-- The elements of the hash part, from its end. -/
def hashElements (t : Table Key Val) : List (Key × Val) :=
  (List.range t.sizenode).reverse.filterMap fun i => (t.node i).element

/-- `resize`; `set` is `luaH_set`, which `luaH_setnum` agrees with on number keys. -/
def resize (set : Setter Key Val) (t : Table Key Val) (nasize nhsize : ℕ)
    : Except Failure (Table Key Val) := do
  let grown := if t.sizearray < nasize then t.setarrayvector nasize else t
  let empty ← grown.setnodevector nhsize
  let shrunk := if nasize < t.sizearray then empty.setarrayvector nasize else empty
  let moved ← (t.vanishing nasize).foldlM (put set) shrunk
  t.hashElements.foldlM (put set) moved

-----------------------------------------------------------------------------------------
-- Rehash
-----------------------------------------------------------------------------------------

/-- `countint` -/
def countint (key : Key) (nums : ℕ → ℕ) : (ℕ → ℕ) × ℕ :=
  let k := arrayindex key
  if 0 < k ∧ k ≤ maxasize then
    (Function.update nums (ceillog2 k.toNat) (nums (ceillog2 k.toNat) + 1), 1)
  else
    (nums, 0)

/-- The loop of `numusearray` over the slices `(2 ^ (lg - 1), 2 ^ lg]`; `i` is the next key. -/
def numusearrayFrom (t : Table Key Val)
    : ℕ → ℕ → ℕ → (ℕ → ℕ) → ℕ → (ℕ → ℕ) × ℕ
  | 0, _, _, nums, ause => (nums, ause)
  | slices + 1, lg, i, nums, ause =>
      let lim := min (2 ^ lg) t.sizearray
      if t.sizearray < 2 ^ lg ∧ lim < i then (nums, ause)
      else
        let lc := (List.range' i (lim + 1 - i)).countP fun j => (t.array (j - 1)).isSome
        t.numusearrayFrom slices (lg + 1) (max i (lim + 1))
          (Function.update nums lg (nums lg + lc)) (ause + lc)

def numusearray (t : Table Key Val) (nums : ℕ → ℕ) : (ℕ → ℕ) × ℕ :=
  t.numusearrayFrom (maxbits + 1) 0 1 nums 0

/-- `numusehash`: the counts, the integer keys and all keys of the hash part. -/
def numusehash (t : Table Key Val) (nums : ℕ → ℕ) : (ℕ → ℕ) × ℕ × ℕ :=
  t.hashElements.foldl (fun (nums, ause, totaluse) element =>
    let (nums, counted) := countint element.1 nums
    (nums, ause + counted, totaluse + 1)) (nums, 0, 0)

/-- The loop of `computesizes`, from slice `i` on: the size of the array part, and how many
keys go there.
-/
def computesizesFrom (nums : ℕ → ℕ) (narray : ℕ) : ℕ → ℕ → ℕ → ℕ → ℕ → ℕ × ℕ
  | 0, _, _, na, n => (n, na)
  | slices + 1, i, a, na, n =>
      if 2 ^ i / 2 < narray then
        let counted := a + nums i
        let (na, n) :=
          if 0 < nums i ∧ 2 ^ i / 2 < counted then (counted, 2 ^ i) else (na, n)
        if counted = narray then (n, na)
        else computesizesFrom nums narray slices (i + 1) counted na n
      else
        (n, na)

def computesizes (nums : ℕ → ℕ) (narray : ℕ) : ℕ × ℕ :=
  computesizesFrom nums narray (maxbits + 1) 0 0 0 0

/-- `rehash`, for one more key. -/
def rehash (set : Setter Key Val) (t : Table Key Val) (ek : Key)
    : Except Failure (Table Key Val) :=
  let (nums, nasize) := t.numusearray fun _ => 0
  let (nums, ause, hashuse) := t.numusehash nums
  let (nums, extra) := countint ek nums
  let totaluse := nasize + hashuse + 1
  let (n, na) := computesizes nums (nasize + ause + extra)
  t.resize set n (totaluse - na)

/-- `luaH_set`, up to a depth of rehashes. -/
def luaHSetWithin : ℕ → Setter Key Val
  | 0 => fun _ _ => .error .nested
  | depth + 1 => fun t key =>
      match t.luaHGet key with
      | some slot => .ok (t, slot)
      | none =>
          newkey (fun t key => do
            let grown ← t.rehash (luaHSetWithin depth) key
            luaHSetWithin depth grown key) t key

/-- `luaH_set`: what a rehash inserts needs no rehash. -/
def luaHSet : Setter Key Val :=
  luaHSetWithin 2

/-- An assignment `t[key] = val`. -/
def assign (t : Table Key Val) (key : Key) (val : Option Val)
    : Except Failure (Table Key Val) := do
  let (t, slot) ← luaHSet t key
  pure (t.write slot val)

-----------------------------------------------------------------------------------------
-- Boundaries
-----------------------------------------------------------------------------------------

/-- The value under an `int`. -/
def getnum (t : Table Key Val) (n : ℕ) : Option Val :=
  (t.luaHGetnum n).bind t.read

/-- A binary search between a present element, or 0, and an absent one. -/
def bisect (present : ℕ → Bool) : ℕ → ℕ → ℕ → ℕ
  | 0, i, _ => i
  | steps + 1, i, j =>
      if 1 < j - i then
        let m := (i + j) / 2
        if present m then bisect present steps m j else bisect present steps i m
      else
        i

/-- The linear search of `unbound_search`, over at most `steps` elements. -/
def linearSearch (t : Table Key Val) : ℕ → ℕ → ℕ
  | 0, i => i - 1
  | steps + 1, i => if (t.getnum i).isSome then t.linearSearch steps (i + 1) else i - 1

/-- The doubling of `unbound_search`. -/
def unboundSearchFrom (t : Table Key Val) : ℕ → ℕ → ℕ → ℕ
  | 0, i, _ => i
  | steps + 1, i, j =>
      if (t.getnum j).isSome then
        if maxInt < 2 * j then t.linearSearch (t.sizearray + t.sizenode + 1) 1
        else t.unboundSearchFrom steps j (2 * j)
      else
        bisect (fun m => (t.getnum m).isSome) (j - i) i j

/-- `unbound_search` -/
def unboundSearch (t : Table Key Val) (j : ℕ) : ℕ :=
  t.unboundSearchFrom 32 j (j + 1)

/-- `luaH_getn` -/
def luaHGetn (t : Table Key Val) : ℕ :=
  if 0 < t.sizearray ∧ (t.array (t.sizearray - 1)).isNone then
    bisect (fun m => (t.array (m - 1)).isSome) t.sizearray 0 t.sizearray
  else if t.dummy then
    t.sizearray
  else
    t.unboundSearch t.sizearray

/-- `table.insert(t, val)`: the new element goes behind the boundary. -/
def tinsert (t : Table Key Val) (val : Val) : Except Failure (Table Key Val) :=
  t.assign (number (t.luaHGetn + 1)) (some val)

end Table

end

end Labrea.LuaTable
