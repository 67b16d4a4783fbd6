import Labrea.Library.Machine
import Labrea.ScriptMemory

/-! Sequences of calls of `labrea.malloc`, `labrea.free`, `labrea.memcpy` and
`labrea.tostring`: which of them write a Lua string to memory exactly, and what is read back
of it.
-/

namespace Labrea

open Machine (Meets exec exec_invariant)
open Slice (overwrite slice slice_store slice_store_apart)
open Traced.Program (Emits emits_each bind_of_ok bind_returned get_run pure_run)

/-- A call that a script makes. `labrea.memcpy` is given an address, a Lua string and a whole
number.
-/
inductive MemoryCall where
  | malloc (size : ByteValue) (calloc : Calloc)
  | free (addr : ByteValue)
  | memcpy (addr : Nat) (src : List Byte) (n : ℤ)
  | tostring (args : List ByteValue)

variable (lua : Conversions)

def MemoryCall.run : MemoryCall → MemRun Answer
  | .malloc size calloc => doMalloc lua calloc [size]
  | .free addr => doFree lua [addr]
  | .memcpy addr src n => doMemcpy lua [.integer addr, .string src, .integer n]
  | .tostring args => cstringTolstring lua args

/-- The memory after a call that returns or raises an error. -/
def memoryStep (heap : Heap) (call : MemoryCall) : Option Heap :=
  match (call.run lua heap).result with
  | .ok (_, next) => some next
  | .error _ => none

/-- An access of the bytes of a string or of the first `n` bytes at an address. -/
def Access.Within (src : List Byte) (addr : Nat) (n : ℤ) : Access → Prop
  | .readString index => index < src.length
  | .read _ => False
  | .write target => addr ≤ target ∧ (target : ℤ) < addr + n

/-- A call of `labrea.memcpy` is exact: it ends, reads bytes of the string only, and changes
the first `n` bytes at the address only; these are then read back as the first ones of the
string, if that is long enough. Other blocks keep their contents.
-/
structure MemcpyExact (heap : Heap) (addr : Nat) (src : List Byte) (n : ℤ) : Prop where
  ends : (memoryStep lua heap (.memcpy addr src n)).isSome
  within
    : ∀ access ∈ ((MemoryCall.memcpy addr src n).run lua heap).trace, access.Within src addr n
  changes
    : ∀ next, memoryStep lua heap (.memcpy addr src n) = some next
      → ∀ target : Nat, next.byte target ≠ heap.byte target
      → addr ≤ target ∧ (target : ℤ) < addr + n
  reread
    : ∀ next, memoryStep lua heap (.memcpy addr src n) = some next
      → n ≤ src.length
      → (cstringTolstring lua [.integer addr, .integer n] next).result
        = .ok (.ok [.string (src.take n.toNat)], next)
  others
    : ∀ next, memoryStep lua heap (.memcpy addr src n) = some next
      → next.blocks = heap.blocks
        ∧ ∀ block ∈ heap.blocks, ¬ block.Contains addr → next.contents block = heap.contents block

/-- A call does what it should to the memory; one that does not write keeps the contents of
all blocks.
-/
def MemoryCall.Exact (heap : Heap) : MemoryCall → Prop
  | .memcpy addr src n => MemcpyExact lua heap addr src n
  | call =>
      ∀ next, memoryStep lua heap call = some next
        → ∀ block ∈ heap.blocks, block ∈ next.blocks → next.contents block = heap.contents block

/-- The destination is in a live block, and the count is no larger than what follows in it. -/
def MemoryCall.OnLive (heap : Heap) : MemoryCall → Prop
  | .memcpy addr _ n =>
      ∃ block ∈ heap.blocks, block.Contains addr ∧ (addr + n : ℤ) ≤ block.base + block.size
  | _ => True

/-- A count is not negative and not beyond the string. -/
def MemoryCall.InString : MemoryCall → Prop
  | .memcpy _ src n => 0 ≤ n ∧ n ≤ src.length
  | _ => True

variable {lua} {heap next : Heap} {addr count : Nat} {src bytes : List Byte}

theorem memoryStep_eq_some {call : MemoryCall}
    : memoryStep lua heap call = some next
      ↔ ∃ answer, (call.run lua heap).result = .ok (answer, next) := by
  rw [memoryStep]
  cases (call.run lua heap).result with
  | error reason => simp
  | ok pair => simp [Prod.ext_iff]

/-- `labrea.malloc` gives the address of a new block as a whole number. -/
theorem doMalloc_returned {calloc : Calloc} {stack : List ByteValue} {answer : Answer}
    (returned : (doMalloc lua calloc stack heap).result = .ok (answer, next))
    : ∃ block fresh, next = heap.alloc block fresh ∧ answer = .ok [.integer block.base] := by
  obtain ⟨value, between, got, returned, _⟩ := bind_returned returned
  cases readOnly_fromTop stack 1 heap value between got
  by_cases zero : (value.toInteger lua).toNat = 0
  · rw [if_pos zero] at returned
    cases returned
  rw [if_neg zero] at returned
  obtain ⟨found, between, got, returned, _⟩ := bind_returned returned
  cases got
  cases placed : calloc heap (value.toInteger lua).toNat with
  | none =>
      rw [placed] at returned
      cases returned
  | some given =>
      obtain ⟨base, fresh⟩ := given
      rw [placed] at returned
      cases returned
      have below : base + (value.toInteger lua).toNat ≤ 2 ^ 47 := fresh.1.2.2
      have small : base < 2 ^ 53 := by omega
      refine ⟨_, fresh, rfl, ?_⟩
      rw [pushInteger_ofNat small]
      rfl

/-- `labrea.free` takes one block away, or none for `NULL`. -/
theorem doFree_returned {value : ByteValue} {answer : Answer}
    (returned : (doFree lua [value] heap).result = .ok (answer, next))
    : next = heap ∨ next = heap.release (value.toInteger lua).toNat := by
  obtain ⟨found, between, got, returned, _⟩ := bind_returned returned
  cases got
  obtain ⟨found, between, got, returned, _⟩ := bind_returned returned
  cases got
  by_cases null : (value.toInteger lua).toNat = 0
  · rw [if_pos null] at returned
    cases returned
    exact Or.inl rfl
  rw [if_neg null] at returned
  by_cases known : (value.toInteger lua).toNat ∈ heap.blocks.map Block.base
  · rw [if_pos known] at returned
    cases returned
    exact Or.inr rfl
  · rw [if_neg known] at returned
    cases returned

theorem doMemcpy_eq (addr n : ByteValue)
    : doMemcpy lua [addr, .string src, n]
      = (do
          memcpy (addr.toInteger lua).toNat src (n.toInteger lua).toNat
          pure (.ok [])) :=
  rfl

theorem cstringTolstring_eq (addr n : ByteValue)
    : cstringTolstring lua [addr, n]
      = (do
          let value ← pushlstring (addr.toInteger lua).toNat (n.toInteger lua).toNat
          pure (.ok [value])) :=
  rfl

/-- A range of `count` bytes from an address of a live block on. -/
def Heap.Room (heap : Heap) (addr count : Nat) : Prop :=
  ∃ block ∈ heap.blocks, block.Contains addr ∧ addr + count ≤ block.base + block.size

theorem Heap.Room.inObject (room : heap.Room addr count) {index : Nat} (inside : index < count)
    : heap.InObject addr (addr + index) := by
  obtain ⟨block, live, contains, fits⟩ := room
  refine ⟨block, live, contains, ?_⟩
  rw [Block.Contains] at contains ⊢
  omega

/-- Addresses and counts of such a range are passed through Lua as they are. -/
theorem Heap.Room.bounds (room : heap.Room addr count) : addr ≤ 2 ^ 47 ∧ count ≤ 2 ^ 47 := by
  obtain ⟨block, live, contains, fits⟩ := room
  have addressable := heap.addressable block live
  rw [Block.Contains] at contains
  rw [Block.Addressable] at addressable
  omega

/-- Other blocks are apart from the range. -/
theorem Heap.Room.apart (room : heap.Room addr count) {other : Block}
    (live : other ∈ heap.blocks) (outside : ¬ other.Contains addr)
    : other.Apart ⟨addr, count⟩ := by
  obtain ⟨block, blockLive, contains, fits⟩ := room
  have different : block ≠ other := fun same => outside (same ▸ contains)
  have apart := heap.apart.forall blockLive live different
  simp only [Block.Apart, Block.Contains] at apart contains ⊢
  omega

/-- A copy within the string and within a live block stores the first bytes of the string. -/
theorem doMemcpy_run (room : heap.Room addr count) (inString : count ≤ src.length)
    : doMemcpy lua [.integer addr, .string src, .integer count] heap
      = ⟨copyAccesses addr 0 count, .ok (.ok [], heap.write addr (src.take count))⟩ := by
  have copied := @copy_run heap addr src 0 count (by omega)
    fun index _ inside => room.inObject (by omega)
  rw [doMemcpy_eq, integer_toNat room.bounds.1, integer_toNat room.bounds.2, memcpy,
    bind_of_ok copied, pure_run, List.append_nil]
  rfl

/-- `labrea.tostring` gives the bytes of a range of a live block. -/
theorem cstringTolstring_run (room : heap.Room addr count)
    : cstringTolstring lua [.integer addr, .integer count] heap
      = ⟨(List.range' 0 count).map fun index => .read (addr + index),
          .ok (.ok [.string (slice heap.byte addr count)], heap)⟩ := by
  have loaded := @loadBytes_run heap addr 0 count fun index _ inside =>
    room.inObject (by omega)
  rw [cstringTolstring_eq, integer_toNat room.bounds.1, integer_toNat room.bounds.2]
  have pushed
      : pushlstring addr count heap
        = ⟨(List.range' 0 count).map fun index => .read (addr + index),
            .ok (.string (slice heap.byte addr count), heap)⟩ := by
    rw [pushlstring, bind_of_ok loaded, pure_run, List.append_nil]
    rfl
  rw [bind_of_ok pushed, pure_run, List.append_nil]

/-- The bytes are in memory at an address of a live block. -/
structure Heap.Holds (heap : Heap) (addr : Nat) (bytes : List Byte) : Prop where
  room : heap.Room addr bytes.length
  stored : slice heap.byte addr bytes.length = bytes

theorem holds_write (room : heap.Room addr bytes.length)
    : (heap.write addr bytes).Holds addr bytes where
  room := room
  stored := slice_store heap.byte addr bytes

/-- Bytes in memory are read back. -/
theorem Heap.Holds.reread (holds : heap.Holds addr bytes)
    : (cstringTolstring lua [.integer addr, .integer bytes.length] heap).result
      = .ok (.ok [.string bytes], heap) := by
  rw [cstringTolstring_run holds.room, holds.stored]

theorem emits_memcpy {index n : Nat} {access : Access} (inside : index < n)
    (emits : Emits (copyByte addr src index) access)
    : Emits (memcpy addr src n) access :=
  emits_each (List.mem_range'_1.mpr ⟨Nat.zero_le index, by omega⟩) emits

/-- A copy that ends has read and written every byte up to its count. -/
theorem emits_doMemcpy {n : ℤ} {index : Nat} {access : Access}
    (inside : index < ((ByteValue.integer n).toInteger lua).toNat)
    (emits
      : Emits (copyByte ((ByteValue.integer addr).toInteger lua).toNat src index) access)
    : Emits ((MemoryCall.memcpy addr src n).run lua) access := by
  rw [MemoryCall.run, doMemcpy_eq]
  exact (emits_memcpy inside emits).bind _

/-- The accesses of a copy within the string are its bytes and those of the destination. -/
theorem copyAccesses_within (inString : count ≤ src.length)
    : ∀ access ∈ copyAccesses addr 0 count, access.Within src addr count := by
  intro access member
  obtain ⟨index, inside, either⟩ := List.mem_flatMap.mp member
  have below : index < count := by simpa using (List.mem_range'_1.mp inside).2
  rcases List.mem_cons.mp either with rfl | second
  · exact Nat.lt_of_lt_of_le below inString
  · cases List.mem_singleton.mp second
    simp only [Access.Within]
    omega

theorem memoryStep_memcpy (room : heap.Room addr count) (inString : count ≤ src.length)
    : memoryStep lua heap (.memcpy addr src count)
      = some (heap.write addr (src.take count)) := by
  rw [memoryStep, MemoryCall.run, doMemcpy_run room inString]

/-- A copy within the string puts its first bytes into memory. -/
theorem holds_memcpy (room : heap.Room addr count) (inString : count ≤ src.length)
    : (heap.write addr (src.take count)).Holds addr (src.take count) := by
  refine holds_write ?_
  rwa [List.length_take_of_le inString]

/-- A count within the string makes an exact copy. -/
theorem memcpyExact_of_inString (room : heap.Room addr count) (inString : count ≤ src.length)
    : MemcpyExact lua heap addr src count := by
  have ran : (MemoryCall.memcpy addr src count).run lua heap
      = ⟨copyAccesses addr 0 count, .ok (.ok [], heap.write addr (src.take count))⟩ :=
    doMemcpy_run room inString
  have length : (src.take count).length = count := List.length_take_of_le inString
  have stepped := @memoryStep_memcpy lua heap addr count src room inString
  refine ⟨by simp [stepped], ?_, ?_, ?_, ?_⟩
  · rw [ran]
    exact copyAccesses_within inString
  · intro next reached target different
    rw [stepped] at reached
    cases reached
    by_contra outside
    refine different (Slice.store_outside ?_)
    omega
  · intro next reached _
    rw [stepped] at reached
    cases reached
    have reread := @Heap.Holds.reread lua _ addr (src.take count) (holds_memcpy room inString)
    rwa [length] at reread
  · intro next reached
    rw [stepped] at reached
    cases reached
    refine ⟨rfl, ?_⟩
    intro block live outside
    exact Heap.contents_write_apart (length.symm ▸ room.apart live outside)

/-- A copy within the string puts its first bytes in place of those of the block from the
address on.
-/
theorem contents_memcpy {block : Block} (room : heap.Room addr count)
    (inString : count ≤ src.length) (live : block ∈ heap.blocks) (contains : block.Contains addr)
    : ∀ next, memoryStep lua heap (.memcpy addr src count) = some next
      → next.contents block
        = overwrite (heap.contents block) (addr - block.base) (src.take count) := by
  intro next stepped
  rw [memoryStep_memcpy room inString] at stepped
  cases stepped
  obtain ⟨target, targetLive, targetContains, fits⟩ := room
  have same := Heap.eq_of_contains live targetLive contains targetContains
  subst same
  refine Heap.contents_write_inside contains.1 ?_
  rwa [List.length_take_of_le inString]

/-- An exact copy has a count within the string. Witness: a copy that ends has read the byte
at every index below its count, and a negative count is a huge one.
-/
theorem inString_of_memcpyExact {n : ℤ} (small : addr ≤ 2 ^ 47) (smallCount : n ≤ 2 ^ 47)
    (exact : MemcpyExact lua heap addr src n)
    : 0 ≤ n ∧ n ≤ src.length := by
  obtain ⟨next, stepped⟩ := Option.isSome_iff_exists.mp exact.ends
  obtain ⟨answer, returned⟩ := memoryStep_eq_some.mp stepped
  have natural : 0 ≤ n := by
    by_contra negative
    have first := emits_doMemcpy (integer_toNat_pos (not_le.mp negative))
      (emits_copyByte_write _ src 0) heap answer next returned
    have within := exact.within _ first
    rw [integer_toNat small] at within
    simp only [Access.Within] at within
    omega
  refine ⟨natural, ?_⟩
  by_contra beyond
  obtain ⟨count, rfl⟩ := Int.eq_ofNat_of_zero_le natural
  have inside : src.length < ((ByteValue.integer count).toInteger lua).toNat := by
    rw [integer_toNat (by omega)]
    omega
  have past := emits_doMemcpy inside (emits_copyByte_read _ src src.length) heap answer
    next returned
  exact absurd (exact.within _ past) (lt_irrefl src.length)

/-- In a live block, a call is exact exactly where its count is within its string. -/
theorem exact_iff_inString {call : MemoryCall} (live : call.OnLive heap)
    : call.Exact lua heap ↔ call.InString := by
  cases call with
  | malloc size calloc =>
      refine iff_of_true ?_ trivial
      intro next stepped block member _
      obtain ⟨answer, returned⟩ := memoryStep_eq_some.mp stepped
      obtain ⟨placed, fresh, rfl, _⟩ := doMalloc_returned returned
      refine Slice.slice_store_apart ?_
      have apart := fresh.2 block member
      simp only [Block.Apart] at apart
      rw [List.length_replicate]
      omega
  | free value =>
      refine iff_of_true ?_ trivial
      intro next stepped block _ _
      obtain ⟨answer, returned⟩ := memoryStep_eq_some.mp stepped
      rcases doFree_returned returned with rfl | rfl
      · rfl
      · rfl
  | tostring args =>
      refine iff_of_true ?_ trivial
      intro next stepped block _ _
      obtain ⟨answer, returned⟩ := memoryStep_eq_some.mp stepped
      rw [readOnly_cstringTolstring args heap answer next returned]
  | memcpy addr src n =>
      obtain ⟨block, member, contains, fits⟩ := live
      have addressable := heap.addressable block member
      simp only [Block.Contains, Block.Addressable] at contains addressable
      constructor
      · exact inString_of_memcpyExact (by omega) (by omega)
      · intro inString
        obtain ⟨count, rfl⟩ := Int.eq_ofNat_of_zero_le inString.1
        have room : heap.Room addr count := ⟨block, member, contains, by omega⟩
        exact memcpyExact_of_inString room (Int.ofNat_le.mp inString.2)

/-- In a sequence of calls on live blocks, all calls are exact exactly where the counts of
`labrea.memcpy` are within its strings. Witness: the calls are independent of each other
given the memory they find.
-/
theorem memoryCalls_exact_iff {calls : List MemoryCall}
    (live : Meets (memoryStep lua) MemoryCall.OnLive heap calls)
    : Meets (memoryStep lua) (MemoryCall.Exact lua) heap calls
      ↔ Meets (memoryStep lua) (fun _ call => call.InString) heap calls :=
  Machine.meets_congr (fun _ _ => exact_iff_inString) live

/-- A script gets 8 bytes at address 4096 and writes into them. -/
def writes (src : List Byte) (n : ℤ) : List MemoryCall :=
  [.malloc (.integer 8) (callocAt 4096), .memcpy 4096 src n, .tostring [.integer 4096, .integer n]]

/-- The calls are on live blocks as long as the count is at most 8. -/
theorem writes_onLive {n : ℤ} (fits : n ≤ 8)
    : Meets (memoryStep ⟨fun _ => none, fun _ => []⟩) MemoryCall.OnLive Heap.empty
        (writes src n) := by
  refine ⟨trivial, ?_⟩
  intro next stepped
  obtain ⟨answer, returned⟩ := memoryStep_eq_some.mp stepped
  cases returned
  have room : (4096 + n : ℤ) ≤ (4096 : ℕ) + (8 : ℕ) := by omega
  exact ⟨⟨⟨4096, 8⟩, List.mem_cons_self, by decide, room⟩,
    fun _ _ => ⟨trivial, fun _ _ => trivial⟩⟩

/-- The three bytes of a string with an embedded NUL, written and read back. -/
theorem writes_three_exact
    : Meets (memoryStep ⟨fun _ => none, fun _ => []⟩)
        (MemoryCall.Exact ⟨fun _ => none, fun _ => []⟩) Heap.empty (writes [97, 0, 98] 3) :=
  (memoryCalls_exact_iff (writes_onLive (by decide))).mpr
    ⟨trivial, fun _ _ => ⟨⟨by decide, by decide⟩, fun _ _ => ⟨trivial, fun _ _ => trivial⟩⟩⟩

/-- Eight bytes of a string of three are read past its end. -/
theorem writes_eight_inexact
    : ¬ ∀ (lua : Conversions) (heap : Heap) (calls : List MemoryCall),
        Meets (memoryStep lua) MemoryCall.OnLive heap calls
        → Meets (memoryStep lua) (MemoryCall.Exact lua) heap calls := by
  intro always
  have exact := always ⟨fun _ => none, fun _ => []⟩ Heap.empty (writes [97, 0, 98] 8)
    (writes_onLive (by decide))
  have fresh : Heap.empty.Fresh ⟨4096, 8⟩ := by decide
  have copy := (exact.2 (Heap.empty.alloc ⟨4096, 8⟩ fresh) rfl).1
  exact absurd (inString_of_memcpyExact (by decide) (by decide) copy).2 (by decide)

-----------------------------------------------------------------------------------------
-- Bytes in memory during later calls
-----------------------------------------------------------------------------------------

/-- A call does not touch the range: it does not write there, and does not free its block. -/
def MemoryCall.Spares (lua : Conversions) (heap : Heap) (addr count : Nat) : MemoryCall → Prop
  | .memcpy dest _ n => (dest + n : ℤ) ≤ addr ∨ addr + count ≤ dest
  | .free value =>
      ∀ block ∈ heap.blocks, block.Contains addr → block.base ≠ (value.toInteger lua).toNat
  | _ => True

/-- An exact call on live blocks that spares a range. -/
structure MemoryCall.Harmless (lua : Conversions) (addr count : Nat) (heap : Heap)
    (call : MemoryCall) : Prop where
  onLive : call.OnLive heap
  inString : call.InString
  spares : call.Spares lua heap addr count

/-- Bytes in memory outlast a call that spares them. -/
theorem Heap.Holds.step {call : MemoryCall} (holds : heap.Holds addr bytes)
    (harmless : call.Harmless lua addr bytes.length heap)
    (stepped : memoryStep lua heap call = some next)
    : next.Holds addr bytes := by
  obtain ⟨block, member, contains, fits⟩ := holds.room
  obtain ⟨answer, returned⟩ := memoryStep_eq_some.mp stepped
  cases call with
  | malloc size calloc =>
      obtain ⟨placed, fresh, rfl, _⟩ := doMalloc_returned returned
      have apart := fresh.2 block member
      simp only [Block.Apart, Block.Contains] at apart contains
      have kept
          : slice (heap.alloc placed fresh).byte addr bytes.length
            = slice heap.byte addr bytes.length := by
        refine slice_store_apart ?_
        rw [List.length_replicate]
        omega
      exact ⟨⟨block, List.mem_cons_of_mem _ member, contains, fits⟩, kept.trans holds.stored⟩
  | free value =>
      rcases doFree_returned returned with rfl | rfl
      · exact holds
      · have stays : block ∈ (heap.release (value.toInteger lua).toNat).blocks :=
          List.mem_filter.mpr
            ⟨member, decide_eq_true (harmless.spares block member contains)⟩
        exact ⟨⟨block, stays, contains, fits⟩, holds.stored⟩
  | tostring args =>
      rw [readOnly_cstringTolstring args heap answer next returned]
      exact holds
  | memcpy dest src n =>
      obtain ⟨count, rfl⟩ := Int.eq_ofNat_of_zero_le harmless.inString.1
      obtain ⟨target, live, inside, room⟩ := harmless.onLive
      have inString : count ≤ src.length := Int.ofNat_le.mp harmless.inString.2
      rw [memoryStep_memcpy ⟨target, live, inside, by omega⟩ inString] at stepped
      cases stepped
      have spares := harmless.spares
      simp only [MemoryCall.Spares] at spares
      have kept
          : slice (heap.write dest (src.take count)).byte addr bytes.length
            = slice heap.byte addr bytes.length := by
        refine slice_store_apart ?_
        rw [List.length_take_of_le inString]
        omega
      exact ⟨⟨block, member, contains, fits⟩, kept.trans holds.stored⟩

/-- Bytes in memory outlast a run of calls that spare them. -/
theorem exec_holds {calls : List MemoryCall} {last : Heap} (holds : heap.Holds addr bytes)
    (run : exec (memoryStep lua) heap calls = some last)
    (harmless
      : Meets (memoryStep lua) (MemoryCall.Harmless lua addr bytes.length) heap calls)
    : last.Holds addr bytes :=
  exec_invariant (fun _ _ _ => Heap.Holds.step) holds run harmless

/-- What `labrea.memcpy` wrote is read back after any calls that spare it. -/
theorem tostring_after_memcpy {calls : List MemoryCall} {last : Heap}
    (room : heap.Room addr count) (inString : count ≤ src.length)
    (run : exec (memoryStep lua) heap (.memcpy addr src count :: calls) = some last)
    (harmless
      : ∀ next, memoryStep lua heap (.memcpy addr src count) = some next
        → Meets (memoryStep lua) (MemoryCall.Harmless lua addr count) next calls)
    : (cstringTolstring lua [.integer addr, .integer count] last).result
      = .ok (.ok [.string (src.take count)], last) := by
  obtain ⟨next, stepped, later⟩ := Machine.exec_cons.mp run
  have spared := harmless next stepped
  rw [memoryStep_memcpy room inString] at stepped
  cases stepped
  have length : (src.take count).length = count := List.length_take_of_le inString
  have holds : last.Holds addr (src.take count) :=
    exec_holds (holds_memcpy room inString) later (length.symm ▸ spared)
  have reread := @Heap.Holds.reread lua last addr (src.take count) holds
  rwa [length] at reread

end Labrea
