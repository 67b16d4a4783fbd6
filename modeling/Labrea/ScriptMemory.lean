import Mathlib.Data.List.Pairwise
import Labrea.Library.Partial
import Labrea.Library.Slice
import Labrea.Runtime

/-! The memory functions of `scripting.cc`: `labrea.malloc`, `labrea.free`, `labrea.memcpy` and
`labrea.tostring`, on the live blocks of the process and the byte strings of Lua.
-/

namespace Labrea

open Slice (overwrite slice store)
open Traced.Program (ReadOnly readOnly_pure readOnly_emit readOnly_get readOnly_halt readOnly_bind
  Emits emits_emit emits_after emit get modify halt each bind_of_ok emit_bind_run get_run pure_run)

abbrev Byte := BitVec 8

/-- A Lua value as the memory functions take it, a string with its bytes. -/
inductive ByteValue where
  | nil
  | number (value : LuaNumber)
  | string (contents : List Byte)
  | other
  deriving DecidableEq

/-- The conversions of Lua between strings and numbers: `luaO_str2d`, and the text that
`luaV_tostring` gives a number.
-/
structure Conversions where
  str2d : List Byte → Option LuaNumber
  number2str : LuaNumber → List Byte

namespace ByteValue

/-- A whole number. -/
def integer (n : ℤ) : ByteValue :=
  .number (.finite n)

variable (lua : Conversions)

/-- The value as `lua_tointeger` takes it. -/
def luaValue : ByteValue → LuaValue
  | .nil => .nil
  | .number value => .number value
  | .string contents => .string (lua.str2d contents)
  | .other => .object

def toInteger (value : ByteValue) : BitVec 64 :=
  (value.luaValue lua).toInteger

/-- `lua_tolstring`: the bytes and their number, or `NULL`. -/
def tolstring : ByteValue → Option (List Byte)
  | .string contents => some contents
  | .number value => some (lua.number2str value)
  | .nil | .other => none

end ByteValue

/-- A block that `calloc` gave out. -/
structure Block where
  base : Nat
  size : Nat
  deriving DecidableEq, Repr

namespace Block

def Contains (block : Block) (addr : Nat) : Prop :=
  block.base ≤ addr ∧ addr < block.base + block.size

instance (block : Block) (addr : Nat) : Decidable (block.Contains addr) :=
  inferInstanceAs (Decidable (_ ∧ _))

def Apart (block other : Block) : Prop :=
  block.base + block.size ≤ other.base ∨ other.base + other.size ≤ block.base

instance (block other : Block) : Decidable (block.Apart other) :=
  inferInstanceAs (Decidable (_ ∨ _))

instance : Std.Symm Apart where
  symm _ _ := Or.symm

/-- A nonempty block that has an address below `2 ^ 47`, the user half of the address space. -/
def Addressable (block : Block) : Prop :=
  0 < block.base ∧ 0 < block.size ∧ block.base + block.size ≤ 2 ^ 47

instance (block : Block) : Decidable block.Addressable :=
  inferInstanceAs (Decidable (_ ∧ _))

/-- Two blocks apart have no address in common. -/
theorem Apart.not_contains {block other : Block} {addr : Nat} (apart : block.Apart other)
    (contains : block.Contains addr)
    : ¬ other.Contains addr := by
  rw [Apart] at apart
  rw [Contains] at contains ⊢
  omega

end Block

/-- The live blocks, which are apart from each other, and the bytes of the memory. -/
structure Heap where
  blocks : List Block
  byte : Nat → Byte
  apart : blocks.Pairwise Block.Apart
  addressable : ∀ block ∈ blocks, block.Addressable

namespace Heap

def empty : Heap where
  blocks := []
  byte _ := 0
  apart := List.Pairwise.nil
  addressable := by simp

/-- The bytes of a block. -/
def contents (heap : Heap) (block : Block) : List Byte :=
  slice heap.byte block.base block.size

/-- The target lies in the live block that a pointer points into. -/
def InObject (heap : Heap) (pointer target : Nat) : Prop :=
  ∃ block ∈ heap.blocks, block.Contains pointer ∧ block.Contains target

instance (heap : Heap) (pointer target : Nat) : Decidable (heap.InObject pointer target) :=
  inferInstanceAs (Decidable (∃ block ∈ heap.blocks, _))

/-- Bytes stored at successive addresses. -/
def write (heap : Heap) (addr : Nat) (bytes : List Byte) : Heap :=
  { heap with byte := store heap.byte addr bytes }

/-- A block that is no part of a live one. -/
def Fresh (heap : Heap) (block : Block) : Prop :=
  block.Addressable ∧ ∀ other ∈ heap.blocks, block.Apart other

instance (heap : Heap) (block : Block) : Decidable (heap.Fresh block) :=
  inferInstanceAs (Decidable (_ ∧ _))

/-- The heap with a new block of zeros. -/
def alloc (heap : Heap) (block : Block) (fresh : heap.Fresh block) : Heap where
  blocks := block :: heap.blocks
  byte := store heap.byte block.base (List.replicate block.size 0)
  apart := List.pairwise_cons.mpr ⟨fresh.2, heap.apart⟩
  addressable := List.forall_mem_cons.mpr ⟨fresh.1, heap.addressable⟩

/-- The heap without the block at an address. -/
def release (heap : Heap) (addr : Nat) : Heap where
  blocks := heap.blocks.filter (·.base ≠ addr)
  byte := heap.byte
  apart := heap.apart.filter _
  addressable block member := heap.addressable block (List.mem_filter.mp member).1

variable {heap : Heap}

theorem write_cons (heap : Heap) (addr : Nat) (byte : Byte) (bytes : List Byte)
    : heap.write addr (byte :: bytes) = (heap.write addr [byte]).write (addr + 1) bytes := rfl

theorem write_nil (heap : Heap) (addr : Nat) : heap.write addr [] = heap := rfl

/-- Of two live blocks that share an address there is only one. -/
theorem eq_of_contains {block other : Block} {addr : Nat} (live : block ∈ heap.blocks)
    (otherLive : other ∈ heap.blocks) (contains : block.Contains addr)
    (otherContains : other.Contains addr)
    : block = other := by
  by_contra different
  have apart := heap.apart.forall live otherLive different
  exact apart.not_contains contains otherContains

/-- Storing in a block overwrites its bytes from the address on. -/
theorem contents_write_inside {block : Block} {addr : Nat} {bytes : List Byte}
    (lower : block.base ≤ addr) (upper : addr + bytes.length ≤ block.base + block.size)
    : (heap.write addr bytes).contents block
      = overwrite (heap.contents block) (addr - block.base) bytes := by
  obtain ⟨offset, rfl⟩ := Nat.exists_eq_add_of_le lower
  rw [Nat.add_sub_cancel_left]
  exact Slice.slice_store_inside (by omega)

/-- Storing in one block changes no other one. -/
theorem contents_write_apart {block : Block} {addr : Nat} {bytes : List Byte}
    (apart : block.Apart ⟨addr, bytes.length⟩)
    : (heap.write addr bytes).contents block = heap.contents block :=
  Slice.slice_store_apart apart

end Heap

/-- A byte that is read or written: of the string object that `memcpy` copies from, or of the
memory.
-/
inductive Access where
  | readString (index : Nat)
  | read (addr : Nat)
  | write (addr : Nat)
  deriving DecidableEq, Repr

abbrev MemRun := Traced.Program Heap Access Halt

/-- `src[index]` for the bytes of a Lua string, which a zero byte follows. -/
def readString (src : List Byte) (index : Nat) : MemRun Byte := do
  emit (.readString index)
  match (src ++ [0])[index]? with
  | some byte => pure byte
  | none => halt .undefined

/-- `addr[index]` -/
def load (addr index : Nat) : MemRun Byte := do
  emit (.read (addr + index))
  let heap ← get
  if heap.InObject addr (addr + index) then
    pure (heap.byte (addr + index))
  else
    halt .undefined

/-- `addr[index] = byte` -/
def storeByte (addr index : Nat) (byte : Byte) : MemRun Unit := do
  emit (.write (addr + index))
  let heap ← get
  if heap.InObject addr (addr + index) then
    modify (·.write (addr + index) [byte])
  else
    halt .undefined

def copyByte (addr : Nat) (src : List Byte) (index : Nat) : MemRun Unit := do
  let byte ← readString src index
  storeByte addr index byte

/-- `memcpy(addr, src, n)` from a Lua string. -/
def memcpy (addr : Nat) (src : List Byte) (n : Nat) : MemRun Unit :=
  each (copyByte addr src) (List.range' 0 n)

/-- Copies `count` bytes from `addr[index]` on. -/
def loadBytes (addr : Nat) : Nat → Nat → MemRun (List Byte)
  | _, 0 => pure []
  | index, count + 1 => do
      let byte ← load addr index
      let rest ← loadBytes addr (index + 1) count
      pure (byte :: rest)

/-- `strlen(addr)`, counted from `index` on. -/
def strlen (addr : Nat) : Nat → Nat → MemRun Nat
  | _, 0 => halt .undefined
  | index, fuel + 1 => do
      let byte ← load addr index
      if byte = 0 then
        pure index
      else
        strlen addr (index + 1) fuel

-----------------------------------------------------------------------------------------
-- The functions of `labrea`
-----------------------------------------------------------------------------------------

/-- A C function raises an error object or returns its results. -/
abbrev Answer := Except ByteValue (List ByteValue)

/-- The value at index `-depth` of the stack; below the arguments is the called function. -/
def fromTop (stack : List ByteValue) (depth : Nat) : MemRun ByteValue :=
  match (stack.reverse ++ [.other])[depth - 1]? with
  | some value => pure value
  | none => halt .undefined

/-- `lua_pushlstring` -/
def pushlstring (addr n : Nat) : MemRun ByteValue := do
  let contents ← loadBytes addr 0 n
  pure (.string contents)

/-- `lua_pushstring`. No block is as long as the address space, where the search would end. -/
def pushstring (addr : Nat) : MemRun ByteValue :=
  if addr = 0 then
    pure .nil
  else do
    let length ← strlen addr 0 (2 ^ 47)
    pushlstring addr length

/-- A string literal of the C++ source. -/
def literal (text : CString) : ByteValue :=
  .string (text.map fun char => BitVec.ofNat 8 char.toNat)

/-- What a call of `calloc(1, size)` gives: a fresh block of the size, or `NULL`. -/
abbrev Calloc := (heap : Heap) → (size : Nat) → Option { base : Nat // heap.Fresh ⟨base, size⟩ }

/-- A `calloc` that has one address to give. -/
def callocAt (base : Nat) : Calloc :=
  fun heap size => if fresh : heap.Fresh ⟨base, size⟩ then some ⟨base, fresh⟩ else none

variable (lua : Conversions)

def cstringTolstring (stack : List ByteValue) : MemRun Answer :=
  if stack.length = 1 then do
    let addr ← fromTop stack 1
    let value ← pushstring (addr.toInteger lua).toNat
    pure (.ok [value])
  else if stack.length = 2 then do
    let addr ← fromTop stack 2
    let n ← fromTop stack 1
    let value ← pushlstring (addr.toInteger lua).toNat (n.toInteger lua).toNat
    pure (.ok [value])
  else
    pure (.error (literal "labrea.tostring takes one or two args".toList))

def doMalloc (calloc : Calloc) (stack : List ByteValue) : MemRun Answer := do
  let value ← fromTop stack 1
  let size := (value.toInteger lua).toNat
  if size = 0 then
    halt .abort
  else
    let heap ← get
    match calloc heap size with
    | none => halt .abort
    | some placed =>
        modify (fun _ => heap.alloc ⟨placed.val, size⟩ placed.property)
        pure (.ok [.number (pushInteger (BitVec.ofNat 64 placed.val))])

def doFree (stack : List ByteValue) : MemRun Answer := do
  let value ← fromTop stack 1
  let addr := (value.toInteger lua).toNat
  let heap ← get
  if addr = 0 then
    pure (.ok [])
  else if addr ∈ heap.blocks.map Block.base then
    modify (·.release addr)
    pure (.ok [])
  else
    halt .undefined

def doMemcpy (stack : List ByteValue) : MemRun Answer := do
  let addr ← fromTop stack 3
  let src ← fromTop stack 2
  let n ← fromTop stack 1
  match src.tolstring lua with
  | none => halt .undefined
  | some src =>
      memcpy (addr.toInteger lua).toNat src (n.toInteger lua).toNat
      pure (.ok [])

variable {lua} {heap : Heap} {addr : Nat} {src : List Byte}

theorem integer_toInteger (n : ℤ)
    : (ByteValue.integer n).toInteger lua
      = if -2 ^ 63 ≤ n ∧ n < 2 ^ 63 then BitVec.ofInt 64 n else BitVec.intMin 64 :=
  LuaNumber.toInteger_intCast n

/-- An address or a size is passed as it is. -/
theorem integer_toNat {n : Nat} (small : n ≤ 2 ^ 47)
    : ((ByteValue.integer n).toInteger lua).toNat = n := by
  rw [integer_toInteger, if_pos (by omega), BitVec.toNat_ofInt]
  omega

/-- A negative number is passed as a positive one. -/
theorem integer_toNat_pos {n : ℤ} (negative : n < 0)
    : 0 < ((ByteValue.integer n).toInteger lua).toNat := by
  rw [integer_toInteger]
  split
  case isTrue inside =>
    rw [BitVec.toNat_ofInt]
    omega
  case isFalse => decide

theorem readOnly_fromTop (stack : List ByteValue) (depth : Nat)
    : ReadOnly (fromTop stack depth) := by
  rw [fromTop]
  split
  · exact readOnly_pure
  · exact readOnly_halt

theorem readOnly_load (addr index : Nat) : ReadOnly (load addr index) := by
  refine readOnly_bind readOnly_emit fun _ => ?_
  refine readOnly_bind readOnly_get fun heap => ?_
  split
  · exact readOnly_pure
  · exact readOnly_halt

/-- Copying bytes out of the memory leaves it, by induction on their number. -/
theorem readOnly_loadBytes (addr index count : Nat) : ReadOnly (loadBytes addr index count) := by
  induction count generalizing index with
  | zero => exact readOnly_pure
  | succ count ih =>
      refine readOnly_bind (readOnly_load addr index) fun _ => ?_
      exact readOnly_bind (ih (index + 1)) fun _ => readOnly_pure

theorem readOnly_strlen (addr index fuel : Nat) : ReadOnly (strlen addr index fuel) := by
  induction fuel generalizing index with
  | zero => exact readOnly_halt
  | succ fuel ih =>
      refine readOnly_bind (readOnly_load addr index) fun byte => ?_
      split
      · exact readOnly_pure
      · exact ih (index + 1)

theorem readOnly_pushlstring (addr n : Nat) : ReadOnly (pushlstring addr n) :=
  readOnly_bind (readOnly_loadBytes addr 0 n) fun _ => readOnly_pure

theorem readOnly_pushstring (addr : Nat) : ReadOnly (pushstring addr) := by
  rw [pushstring]
  split
  · exact readOnly_pure
  · exact readOnly_bind (readOnly_strlen addr 0 _) fun _ => readOnly_pushlstring addr _

/-- `labrea.tostring` leaves the memory as it was. -/
theorem readOnly_cstringTolstring (stack : List ByteValue)
    : ReadOnly (cstringTolstring lua stack) := by
  rw [cstringTolstring]
  split
  case isTrue one =>
    refine readOnly_bind (readOnly_fromTop stack 1) fun _ => ?_
    exact readOnly_bind (readOnly_pushstring _) fun _ => readOnly_pure
  case isFalse notOne =>
    split
    case isTrue two =>
      refine readOnly_bind (readOnly_fromTop stack 2) fun _ => ?_
      refine readOnly_bind (readOnly_fromTop stack 1) fun _ => ?_
      exact readOnly_bind (readOnly_pushlstring _ _) fun _ => readOnly_pure
    case isFalse => exact readOnly_pure

/-- A copy of a byte reads it and writes it. -/
theorem emits_copyByte_read (addr : Nat) (src : List Byte) (index : Nat)
    : Emits (copyByte addr src index) (.readString index) :=
  (emits_emit.bind _).bind _

theorem emits_copyByte_write (addr : Nat) (src : List Byte) (index : Nat)
    : Emits (copyByte addr src index) (.write (addr + index)) :=
  emits_after fun _ => emits_emit.bind _

/-- The accesses of a copy of `count` bytes from `start` on. -/
def copyAccesses (addr start count : Nat) : List Access :=
  (List.range' start count).flatMap fun index => [.readString index, .write (addr + index)]

theorem copyByte_run {index : Nat} {byte : Byte} (found : src[index]? = some byte)
    (inside : heap.InObject addr (addr + index))
    : copyByte addr src index heap
      = ⟨[.readString index, .write (addr + index)],
          .ok ((), heap.write (addr + index) [byte])⟩ := by
  have bound : index < src.length := (List.getElem?_eq_some_iff.mp found).1
  have read : readString src index heap = ⟨[.readString index], .ok (byte, heap)⟩ := by
    rw [readString, emit_bind_run, List.getElem?_append_left bound, found]
    rfl
  rw [copyByte, bind_of_ok read, storeByte, emit_bind_run,
    bind_of_ok (get_run heap), if_pos inside]
  rfl

/-- A copy within the string and within the object stores the bytes of the string, by
induction on their number.
-/
theorem copy_run {start count : Nat} (bound : start + count ≤ src.length)
    (inside : ∀ index, start ≤ index → index < start + count
      → heap.InObject addr (addr + index))
    : each (copyByte addr src) (List.range' start count) heap
      = ⟨copyAccesses addr start count,
          .ok ((), heap.write (addr + start) ((src.drop start).take count))⟩ := by
  induction count generalizing start heap with
  | zero => simp [copyAccesses, Heap.write_nil]
  | succ count ih =>
      have found : src[start]? = some src[start] := List.getElem?_eq_getElem (by omega)
      have first := copyByte_run found (inside start (by omega) (by omega))
      have later := @ih (heap.write (addr + start) [src[start]]) (start + 1) (by omega)
        fun index lower upper => inside index (by omega) (by omega)
      have rest : src.drop start = src[start] :: src.drop (start + 1) :=
        List.drop_eq_getElem_cons (by omega)
      rw [List.range'_succ, Traced.Program.each_cons, bind_of_ok first, later,
        rest, List.take_succ_cons, Heap.write_cons]
      rfl

/-- Bytes of one object are copied out as they are, by induction on their number. -/
theorem loadBytes_run {index count : Nat}
    (inside : ∀ later, index ≤ later → later < index + count
      → heap.InObject addr (addr + later))
    : loadBytes addr index count heap
      = ⟨(List.range' index count).map fun later => .read (addr + later),
          .ok (slice heap.byte (addr + index) count, heap)⟩ := by
  induction count generalizing index with
  | zero => rfl
  | succ count ih =>
      have first
          : load addr index heap
            = ⟨[.read (addr + index)], .ok (heap.byte (addr + index), heap)⟩ := by
        rw [load, emit_bind_run,
          bind_of_ok (get_run heap),
          if_pos (inside index (by omega) (by omega))]
        rfl
      have later := @ih (index + 1) fun later lower upper => inside later (by omega) (by omega)
      rw [loadBytes, bind_of_ok first, bind_of_ok later,
        pure_run, List.append_nil]
      rfl

end Labrea
