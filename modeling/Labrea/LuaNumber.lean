import Mathlib.Data.Rat.Defs
import Labrea.Library.Rounding
import Labrea.Types

/-! Lua values as labrea exchanges them: numbers are doubles, and integers enter and leave
through `lua_Integer`, 64-bit two's complement on an LP64 target.
-/

namespace Labrea

/-- A `lua_Number`; finite doubles are rationals. -/
inductive LuaNumber where
  | finite (value : ℚ)
  | nonfinite
  deriving DecidableEq

/-- `lua_pushinteger`: the conversion to double rounds to 53 significant bits. -/
def pushInteger (n : BitVec 64) : LuaNumber :=
  .finite (Rounding.round 53 n.toInt : ℤ)

/-- `lua_number2integer`: a cast that truncates toward zero. Out of range the x86-64
conversion gives the most negative integer.
-/
def LuaNumber.toInteger : LuaNumber → BitVec 64
  | .finite value =>
      let whole := value.num.tdiv value.den
      if -2 ^ 63 ≤ whole ∧ whole < 2 ^ 63 then BitVec.ofInt 64 whole else BitVec.intMin 64
  | .nonfinite => BitVec.intMin 64

/-- An integral number is read back as it is where it is in the range of `lua_Integer`. -/
theorem LuaNumber.toInteger_intCast (n : ℤ)
    : (LuaNumber.finite n).toInteger
      = if -2 ^ 63 ≤ n ∧ n < 2 ^ 63 then BitVec.ofInt 64 n else BitVec.intMin 64 := by
  simp only [toInteger, Rat.num_intCast, Rat.den_intCast, Int.natCast_one, Int.tdiv_one]

/-- A Lua value. A string is given by the number `luaO_str2d` reads from it, if any. -/
inductive LuaValue where
  | nil
  | boolean (value : Bool)
  | number (value : LuaNumber)
  | string (reading : Option LuaNumber)
  | object
  deriving DecidableEq

/-- `luaV_tonumber` -/
def LuaValue.tonumber : LuaValue → Option LuaNumber
  | .number value => some value
  | .string reading => reading
  | _ => none

/-- `lua_isnumber` -/
def LuaValue.isNumber (value : LuaValue) : Bool :=
  value.tonumber.isSome

/-- `lua_tointeger`: zero where there is no number. -/
def LuaValue.toInteger (value : LuaValue) : BitVec 64 :=
  (value.tonumber.map LuaNumber.toInteger).getD 0

/-- `lua_tointeger` of a stack index; an index past the top is no value. -/
def stackInteger (stack : List LuaValue) (index : Nat) : BitVec 64 :=
  (stack[index]?.map LuaValue.toInteger).getD 0

/-- The `add_arg` overloads: `int` widens with its sign, `unsigned int` with zeros, and the
8-byte types and pointers are taken as they are.
-/
def addArg : CValue → LuaNumber
  | .int bits => pushInteger (bits.signExtend 64)
  | .unsignedInt bits => pushInteger (bits.setWidth 64)
  | .long bits | .unsignedLong bits | .longLong bits | .unsignedLongLong bits
  | .pointer _ bits => pushInteger bits

/-- The integer that enters Lua for a C value. -/
def CValue.widened : CValue → BitVec 64
  | .int bits => bits.signExtend 64
  | .unsignedInt bits => bits.setWidth 64
  | .long bits | .unsignedLong bits | .longLong bits | .unsignedLongLong bits
  | .pointer _ bits => bits

theorem addArg_eq (value : CValue) : addArg value = pushInteger value.widened := by
  cases value <;> rfl

theorem BitVec.natAbs_toInt_le (n : BitVec 64) : n.toInt.natAbs ≤ 2 ^ 63 := by
  have lower := BitVec.le_toInt n
  have upper := BitVec.toInt_lt (x := n)
  omega

/-- The rounded integer stays in range but for the upper end, where only `2 ^ 63` is new. -/
theorem round_toInt_range (n : BitVec 64)
    : -2 ^ 63 ≤ Rounding.round 53 n.toInt ∧ Rounding.round 53 n.toInt ≤ 2 ^ 63 := by
  have magnitude : (Rounding.round 53 n.toInt).natAbs ≤ 2 ^ 63 := by
    rw [Rounding.natAbs_round]
    rcases Nat.lt_or_eq_of_le (BitVec.natAbs_toInt_le n) with below | top
    · exact Rounding.roundNat_le below
    · rw [top, Rounding.roundNat_eq_self (by decide)]
  omega

/-- The most negative integer is not rounded. -/
theorem round_intMin : Rounding.round 53 (BitVec.intMin 64).toInt ≠ 2 ^ 63 := by decide

/-- An integer survives the way through a Lua number exactly when it has at most 53
significant bits.
-/
theorem toInteger_pushInteger {n : BitVec 64}
    : (pushInteger n).toInteger = n ↔ Rounding.Fits 53 n.toInt := by
  have range := round_toInt_range n
  have lower := BitVec.le_toInt n
  have upper := BitVec.toInt_lt (x := n)
  rw [← Rounding.round_eq_self_iff]
  rw [pushInteger, LuaNumber.toInteger_intCast]
  constructor
  · intro same
    split at same
    case isTrue inside =>
      rw [← BitVec.toInt_ofInt_eq_self (w := 64) (by decide) inside.1 inside.2, same]
    case isFalse outside =>
      have top : Rounding.round 53 n.toInt = 2 ^ 63 := by omega
      exact absurd (same ▸ top) round_intMin
  · intro same
    rw [same, if_pos ⟨lower, upper⟩, BitVec.ofInt_toInt]

theorem toInt_ofNat {n : Nat} (small : n < 2 ^ 63) : (BitVec.ofNat 64 n).toInt = n := by
  rw [BitVec.toInt_eq_toNat_cond, BitVec.toNat_ofNat]
  omega

theorem fits_ofNat {n : Nat} (small : n < 2 ^ 53)
    : Rounding.Fits 53 (BitVec.ofNat 64 n).toInt := by
  rw [toInt_ofNat (by omega)]
  exact Rounding.fits_of_natAbs_lt small

/-- A natural number of at most 53 bits is pushed as it is. -/
theorem pushInteger_ofNat {n : Nat} (small : n < 2 ^ 53)
    : pushInteger (BitVec.ofNat 64 n) = .finite (n : ℤ) := by
  rw [pushInteger, Rounding.round_eq_self_iff.mpr (fits_ofNat small), toInt_ofNat (by omega)]

/-- The two widenings of a 4-byte value fit a Lua number. -/
theorem fits_signExtend (bits : BitVec 32) : Rounding.Fits 53 (bits.signExtend 64).toInt := by
  refine Rounding.fits_of_natAbs_lt ?_
  have lower := BitVec.le_toInt bits
  have upper := BitVec.toInt_lt (x := bits)
  rw [BitVec.toInt_signExtend_of_le (by decide)]
  omega

theorem fits_setWidth (bits : BitVec 32) : Rounding.Fits 53 (bits.setWidth 64).toInt := by
  refine Rounding.fits_of_natAbs_lt ?_
  have bound := bits.isLt
  rw [BitVec.toInt_setWidth, Int.bmod_eq_of_le] <;> omega

/-- Whether a value is passed through a Lua number unchanged: a 4-byte value always, an
8-byte value when, read as a signed integer, it has at most 53 significant bits.
-/
def CValue.Exact (value : CValue) : Prop :=
  value.type.size = 8 → Rounding.Fits 53 value.widened.toInt

theorem CValue.exact_iff_fits (value : CValue)
    : value.Exact ↔ Rounding.Fits 53 value.widened.toInt := by
  cases value
  case int bits =>
    exact iff_of_true (by simp [Exact, CValue.type, CType.size]) (fits_signExtend bits)
  case unsignedInt bits =>
    exact iff_of_true (by simp [Exact, CValue.type, CType.size]) (fits_setWidth bits)
  all_goals exact ⟨fun exact => exact rfl, fun fits _ => fits⟩

/-- Reading back what `add_arg` pushed gives the pushed integer for exact values only. -/
theorem toInteger_addArg {value : CValue}
    : (addArg value).toInteger = value.widened ↔ value.Exact := by
  rw [addArg_eq, toInteger_pushInteger, value.exact_iff_fits]

end Labrea
