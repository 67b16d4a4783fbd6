import Mathlib.Data.List.Basic
import Mathlib.Data.List.Nodup
import Labrea.Library.BitCode
import Labrea.Types

/-! The function table: `calls.defs`, the entries `definecalls.h` makes of it, and what
`LabreaInit` fills in at start-up.
-/

namespace Labrea

/-- One line `DEFINEk(rv, n, a1, .., ak)` of `calls.defs`; the macros exist for k = 1..5. -/
structure Define where
  rv : CType
  n : CString
  args : List CType
  arity : 1 ≤ args.length ∧ args.length ≤ 5 := by decide
  deriving DecidableEq, Repr

/-- The types that select the instantiation `wrapper<rv, a1, .., ak>`. -/
def Define.signature (define : Define) : CType × List CType :=
  (define.rv, define.args)

/-- `definecalls.h`: the static initialiser of the entry. -/
def Define.entry (define : Define) : FType where
  pos := 0
  offset := 0
  name := define.n
  orig := none
  numArgs := define.args.length
  rvSize := define.rv.size
  argWidths := define.args.map CType.size
  hasBefore := false
  hasAround := false
  hasAfter := false

def sizeT : CType := .unsignedLong
def ssizeT : CType := .long
def offT : CType := .long
def socklenT : CType := .unsignedInt
def file : CType := .pointer "FILE"

/-- `calls.defs` -/
def callsDefs : List Define := [
  { rv := .int, n := "open".toList, args := [.pointer "const char", .int, .int] },
  { rv := file, n := "fopen".toList, args := [.pointer "const char", .pointer "const char"] },
  { rv := sizeT, n := "fwrite".toList, args := [.pointer "const void", sizeT, sizeT, file] },
  { rv := sizeT, n := "fread".toList, args := [.pointer "void", sizeT, sizeT, file] },
  { rv := .long, n := "ftell".toList, args := [file] },
  { rv := offT, n := "ftello".toList, args := [file] },
  { rv := .int, n := "close".toList, args := [.int] },
  { rv := ssizeT, n := "read".toList, args := [.int, .pointer "void", sizeT] },
  { rv := ssizeT, n := "write".toList, args := [.int, .pointer "const void", sizeT] },
  { rv := offT, n := "lseek".toList, args := [.int, offT, .int] },
  { rv := ssizeT, n := "recv".toList, args := [.int, .pointer "void", sizeT, .int] },
  { rv := ssizeT, n := "recvmsg".toList, args := [.int, .pointer "struct msghdr", .int] },
  { rv := ssizeT, n := "send".toList, args := [.int, .pointer "const void", sizeT, .int] },
  { rv := ssizeT, n := "sendmsg".toList,
    args := [.int, .pointer "const struct msghdr", .int] },
  { rv := .int, n := "select".toList,
    args := [.int, .pointer "fd_set", .pointer "fd_set", .pointer "fd_set",
      .pointer "struct timeval"] },
  { rv := .int, n := "bind".toList,
    args := [.int, .pointer "const struct sockaddr", socklenT] },
  { rv := .int, n := "listen".toList, args := [.int, .int] },
  { rv := .int, n := "accept".toList,
    args := [.int, .pointer "struct sockaddr", .pointer "socklen_t"] },
  { rv := .int, n := "connect".toList,
    args := [.int, .pointer "const struct sockaddr", socklenT] }
]

/-- The line of `read` in `calls.defs`. -/
def readDefine : Define where
  rv := ssizeT
  n := "read".toList
  args := [.int, .pointer "void", sizeT]

/-- The line of `lseek` in `calls.defs`. -/
def lseekDefine : Define where
  rv := offT
  n := "lseek".toList
  args := [.int, offT, .int]

/-- The line of `close` in `calls.defs`. -/
def closeDefine : Define where
  rv := .int
  n := "close".toList
  args := [.int]

/-- `acceptable_arg_size` -/
def acceptableArgSize (size : Nat) : Bool := size == 4 || size == 8

/-- Shifts the bit of one size into the code; a size other than 4 and 8 fails an assertion. -/
def shiftSize (offset : BitVec 32) (size : Nat) : Option (BitVec 32) :=
  if acceptableArgSize size then
    some ((offset <<< 1) ||| (if size = 4 then 0 else 1))
  else
    none

/-- `computeOffset`: one bit per argument, the first most significant, then one for the
result.
-/
def computeOffset (func : FType) : Option (BitVec 32) := do
  let offset ← (List.range func.numArgs).foldlM
    (fun offset b => shiftSize offset (func.argWidths.getD b 0)) 0
  shiftSize offset func.rvSize

/-- The bits `computeOffset` shifts in for a list of sizes. -/
def sizeBits (sizes : List Nat) : List Bool :=
  sizes.map (fun size => decide (size ≠ 4))

/-- One round of `computeOffset` appends the bit of its size to the code. -/
theorem shiftSize_value {sizes : List Nat} {size : Nat} (acceptable : acceptableArgSize size)
    : shiftSize (BitVec.ofNat 32 (BitCode.value (sizeBits sizes))) size
      = some (BitVec.ofNat 32 (BitCode.value (sizeBits (sizes ++ [size])))) := by
  rw [shiftSize, if_pos acceptable, sizeBits, sizeBits, List.map_append, List.map_singleton,
    BitCode.value_concat, ← BitCode.shift_or]
  congr 1
  apply BitVec.eq_of_toNat_eq
  by_cases four : size = 4 <;>
    simp [four, BitVec.toNat_shiftLeft, BitVec.toNat_or, Nat.shiftLeft_eq,
      Nat.mod_mul_mod]

/-- The argument loop of `computeOffset` shifts in the bits of the sizes it reads, by
induction on the number of rounds.
-/
theorem computeOffset_loop (widths : List Nat)
    (acceptable : ∀ size ∈ widths, acceptableArgSize size)
    (count : Nat) (bound : count ≤ widths.length)
    : (List.range count).foldlM (fun offset b => shiftSize offset (widths.getD b 0)) 0
      = some (BitVec.ofNat 32 (BitCode.value (sizeBits (widths.take count)))) := by
  induction count with
  | zero => rfl
  | succ count ih =>
      have inside : count < widths.length := bound
      have read : widths.getD count 0 = widths[count] := by
        simp [List.getD_eq_getElem?_getD, inside]
      rw [List.range_succ, List.foldlM_append, ih (Nat.le_of_lt inside)]
      simp only [List.foldlM_cons, List.foldlM_nil, read, Option.bind_eq_bind,
        Option.bind_some, shiftSize_value (acceptable _ (List.getElem_mem inside))]
      rw [List.take_add_one, List.getElem?_eq_getElem inside]
      rfl

/-- `computeOffset` succeeds on acceptable sizes with the code of its size bits. -/
theorem computeOffset_eq {func : FType} (lengths : func.argWidths.length = func.numArgs)
    (acceptable : ∀ size ∈ func.argWidths ++ [func.rvSize], acceptableArgSize size)
    : computeOffset func
      = some (BitVec.ofNat 32
          (BitCode.value (sizeBits (func.argWidths ++ [func.rvSize])))) := by
  have loop := computeOffset_loop func.argWidths
    (fun size member => acceptable size (by simp [member])) func.numArgs (by omega)
  rw [computeOffset, loop, ← lengths, List.take_length]
  exact shiftSize_value (acceptable _ (by simp))

/-- Below the `MAX_ARGS` bound the 32-bit code has not wrapped. -/
theorem sizeBits_value_lt {sizes : List Nat} (bound : sizes.length ≤ maxArgs + 1)
    : BitCode.value (sizeBits sizes) < 2 ^ 32 := by
  have small := BitCode.value_lt (sizeBits sizes)
  rw [sizeBits, List.length_map] at small
  exact Nat.lt_of_lt_of_le small (Nat.pow_le_pow_right (by decide)
    (Nat.le_trans bound (by decide)))

theorem acceptableArgSize_size (type : CType) : acceptableArgSize type.size := by
  cases type <;> rfl

-----------------------------------------------------------------------------------------
-- The table after start-up
-----------------------------------------------------------------------------------------

/-- What `do_reinit` recorded of one function. -/
structure HookFlags where
  before : Bool
  around : Bool
  after : Bool
  deriving DecidableEq, Repr

/-- The data `functions[]` is made of: the lines of `calls.defs`, what `dlsym` found and
what the last `do_reinit` recorded. C linkage keeps the names distinct, and positions are
`int`s.
-/
structure Functions where
  defs : List Define
  orig : CString → Addr
  flags : CString → HookFlags
  distinct : (defs.map Define.n).Nodup
  positions : defs.length < 2 ^ 31

/-- `functions[n]` after start-up and `do_reinit`. -/
def Functions.entryAt (functions : Functions) (n : Nat) (define : Define) : FType :=
  { define.entry with
    pos := n
    offset := BitVec.ofNat 32
      (BitCode.value (sizeBits (define.args.map CType.size ++ [define.rv.size])))
    orig := some (functions.orig define.n)
    hasBefore := (functions.flags define.n).before
    hasAround := (functions.flags define.n).around
    hasAfter := (functions.flags define.n).after }

/-- `functions[]`, without its terminating null entry. -/
def Functions.entries (functions : Functions) : List FType :=
  functions.defs.mapIdx functions.entryAt

/-- The loop of `LabreaInit` from position `n` on; a failed assertion aborts. -/
def labreaInit (dlsym : CString → Option Addr) : Nat → List FType → Option (List FType)
  | _, [] => some []
  | n, func :: rest => do
      let offset ← computeOffset { func with pos := n }
      let orig ← dlsym func.name
      let done ← labreaInit dlsym (n + 1) rest
      pure ({ func with pos := n, offset := offset, orig := some orig } :: done)

theorem Define.computeOffset_entry (define : Define) (n : Nat)
    : computeOffset { define.entry with pos := n }
      = some (BitVec.ofNat 32
          (BitCode.value (sizeBits (define.args.map CType.size ++ [define.rv.size])))) := by
  refine computeOffset_eq (by simp [Define.entry]) ?_
  intro size member
  simp only [Define.entry, List.mem_append, List.mem_map, List.mem_singleton] at member
  rcases member with ⟨type, _, rfl⟩ | rfl
  · exact acceptableArgSize_size type
  · exact acceptableArgSize_size define.rv

/-- Where every name has an original, `LabreaInit` makes the table of `Functions.entries`
with no flag set, by induction on the lines from any position.
-/
theorem labreaInit_entries (functions : Functions)
    (unset : ∀ name, functions.flags name = ⟨false, false, false⟩)
    : labreaInit (fun name => some (functions.orig name)) 0
        (functions.defs.map Define.entry)
      = some functions.entries := by
  suffices ∀ defs : List Define, ∀ n,
      labreaInit (fun name => some (functions.orig name)) n (defs.map Define.entry)
      = some (defs.mapIdx (fun i => functions.entryAt (n + i))) by
    rw [this functions.defs 0, Functions.entries]
    simp only [Nat.zero_add]
  intro defs
  induction defs with
  | nil => intro n; rfl
  | cons define rest ih =>
      intro n
      have later := ih (n + 1)
      simp only [List.map_cons, labreaInit, define.computeOffset_entry, later,
        Option.bind_eq_bind, Option.bind_some, Option.pure_def, List.mapIdx_cons]
      simp only [Functions.entryAt, unset, Nat.add_zero, Nat.add_assoc, Nat.add_comm 1]
      rfl

/-- Entries have the positions and lines they were made from. -/
theorem Functions.entries_getElem? {functions : Functions} {n : Nat}
    : functions.entries[n]? = functions.defs[n]?.map (functions.entryAt n) := by
  simp [Functions.entries]

/-- The table of `calls.defs`, with its originals at distinct addresses and no hooks. -/
def callsFunctions : Functions where
  defs := callsDefs
  orig name := 4096 + 16 * callsDefs.findIdx fun define => define.n = name
  flags _ := ⟨false, false, false⟩
  distinct := by decide
  positions := by decide

end Labrea
