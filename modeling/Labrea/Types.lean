import Mathlib.Algebra.Ring.Int.Defs
import Mathlib.Algebra.Ring.Nat
import Mathlib.Tactic.Common

/-! C types, values and call words of an LP64 target, and `ftype` of `labreatypes.h`. -/

namespace Labrea

/-- A C string, without its terminating NUL. -/
abbrev CString := List Char

/-- A code address, as `dlsym` returns it and `ftype::orig` keeps it. -/
abbrev Addr := Nat

/-- `MAX_ARGS`: the length of `ftype::arg_widths` and of the argument array of `do_invoke`. -/
def maxArgs : Nat := 16

/-- The C types of hookable functions, typedefs resolved. Each has its own `add_arg`
overload, and a tuple of them selects an instantiation of `wrapper`.
-/
inductive CType where
  | int
  | unsignedInt
  | long
  | unsignedLong
  | longLong
  | unsignedLongLong
  | pointer (pointee : String)
  deriving DecidableEq, Repr

/-- `sizeof` -/
def CType.size : CType → Nat
  | .int | .unsignedInt => 4
  | .long | .unsignedLong | .longLong | .unsignedLongLong | .pointer _ => 8

/-- A bit pattern as a call passes it, without its C type. -/
inductive Word where
  | w32 (bits : BitVec 32)
  | w64 (bits : BitVec 64)
  deriving DecidableEq, Repr

def Word.size : Word → Nat
  | .w32 _ => 4
  | .w64 _ => 8

/-- A value of one of the C types. -/
inductive CValue where
  | int (bits : BitVec 32)
  | unsignedInt (bits : BitVec 32)
  | long (bits : BitVec 64)
  | unsignedLong (bits : BitVec 64)
  | longLong (bits : BitVec 64)
  | unsignedLongLong (bits : BitVec 64)
  | pointer (pointee : String) (bits : BitVec 64)
  deriving DecidableEq, Repr

def CValue.type : CValue → CType
  | .int _ => .int
  | .unsignedInt _ => .unsignedInt
  | .long _ => .long
  | .unsignedLong _ => .unsignedLong
  | .longLong _ => .longLong
  | .unsignedLongLong _ => .unsignedLongLong
  | .pointer pointee _ => .pointer pointee

def CValue.word : CValue → Word
  | .int bits | .unsignedInt bits => .w32 bits
  | .long bits | .unsignedLong bits | .longLong bits | .unsignedLongLong bits
  | .pointer _ bits => .w64 bits

/-- The value of a C type with the given bits; the conversion to a 4-byte type keeps the
low half.
-/
def CType.ofBits (bits : BitVec 64) : CType → CValue
  | .int => .int (bits.setWidth 32)
  | .unsignedInt => .unsignedInt (bits.setWidth 32)
  | .long => .long bits
  | .unsignedLong => .unsignedLong bits
  | .longLong => .longLong bits
  | .unsignedLongLong => .unsignedLongLong bits
  | .pointer pointee => .pointer pointee bits

/-- A word read back at a type of its own size. -/
def CType.ofWord (type : CType) : Word → CValue
  | .w32 bits => type.ofBits (bits.setWidth 64)
  | .w64 bits => type.ofBits bits

@[simp] theorem CValue.word_size (value : CValue) : value.word.size = value.type.size := by
  cases value <;> rfl

@[simp] theorem CType.ofBits_type (type : CType) (bits : BitVec 64)
    : (type.ofBits bits).type = type := by
  cases type <;> rfl

@[simp] theorem CType.ofWord_type (type : CType) (word : Word)
    : (type.ofWord word).type = type := by
  cases word <;> simp [CType.ofWord]

/-- A word of the type's size survives being read at the type. -/
@[simp] theorem CType.ofWord_word {type : CType} {word : Word}
    (sized : word.size = type.size)
    : (type.ofWord word).word = word := by
  cases word <;> cases type <;> simp_all [CType.ofWord, CType.ofBits, CValue.word, Word.size,
    CType.size]

/-- `struct ftype`. Elements of `arg_widths` past the end of the list are zero. -/
structure FType where
  pos : Nat
  offset : BitVec 32
  name : CString
  orig : Option Addr
  numArgs : Nat
  rvSize : Nat
  argWidths : List Nat
  hasBefore : Bool
  hasAround : Bool
  hasAfter : Bool
  deriving DecidableEq, Repr

/-- Whether any hook flag of the entry is set. -/
def FType.hooked (func : FType) : Bool :=
  func.hasBefore || func.hasAround || func.hasAfter

end Labrea
