import Mathlib.Algebra.Ring.Int.Defs
import Mathlib.Algebra.Ring.Nat
import Mathlib.Data.List.Induction
import Mathlib.Tactic.Common

/-! Bit sequences as numbers, most significant bit first.
Reading a sequence of a fixed length and writing it back are inverse to each other, and
the numbers below the matching power of two are exactly the codes.
-/

namespace BitCode

/-- Shifts the bits in from the left: the first bit is the most significant one. -/
def value (bits : List Bool) : Nat :=
  bits.foldl (fun code bit => (code <<< 1) ||| bit.toNat) 0

/-- The lowest `length` bits of a number, most significant first. -/
def digits (length code : Nat) : List Bool :=
  ((List.range length).map code.testBit).reverse

/-- Shifting one bit in is doubling and adding it. -/
theorem shift_or (code : Nat) (bit : Bool)
    : (code <<< 1) ||| bit.toNat = 2 * code + bit.toNat := by
  have small : bit.toNat < 2 ^ 1 := by cases bit <;> decide
  rw [← Nat.shiftLeft_add_eq_or_of_lt small, Nat.shiftLeft_eq]
  omega

@[simp] theorem value_nil : value [] = 0 := rfl

/-- Appending a bit doubles the code and adds the bit. -/
@[simp] theorem value_concat (bits : List Bool) (bit : Bool)
    : value (bits ++ [bit]) = 2 * value bits + bit.toNat := by
  simp only [value, List.foldl_append, List.foldl_cons, List.foldl_nil, shift_or]

/-- A code of `n` bits is below `2 ^ n`, by induction on the last bit. -/
theorem value_lt (bits : List Bool) : value bits < 2 ^ bits.length := by
  induction bits using List.reverseRecOn with
  | nil => simp
  | append_singleton bits bit ih =>
      have small : bit.toNat ≤ 1 := Bool.toNat_le bit
      simp only [value_concat, List.length_append, List.length_singleton, Nat.pow_succ]
      omega

@[simp] theorem digits_length (length code : Nat) : (digits length code).length = length := by
  simp [digits]

/-- The digits of a number end in its lowest bit, after those of its half. -/
theorem digits_succ (length code : Nat)
    : digits (length + 1) code = digits length (code / 2) ++ [code.testBit 0] := by
  simp only [digits, List.range_succ_eq_map, List.map_cons, List.map_map, List.reverse_cons]
  congr 2
  apply List.map_congr_left
  intro index _
  simp [Nat.testBit_succ]

/-- Reading digits back is reduction modulo the power of two, by induction on the length. -/
theorem value_digits (length code : Nat) : value (digits length code) = code % 2 ^ length := by
  induction length generalizing code with
  | zero => simp [digits, Nat.mod_one]
  | succ length ih =>
      rw [digits_succ, value_concat, ih, Nat.testBit_zero, Nat.pow_succ']
      have split := Nat.mod_mul (x := code) (a := 2) (b := 2 ^ length)
      have low : (decide (code % 2 = 1)).toNat = code % 2 := by
        rcases Nat.mod_two_eq_zero_or_one code with even | odd
        · simp [even]
        · simp [odd]
      omega

/-- Writing a code back gives its bits, by induction on the last bit. -/
theorem digits_value (bits : List Bool) : digits bits.length (value bits) = bits := by
  induction bits using List.reverseRecOn with
  | nil => rfl
  | append_singleton bits bit ih =>
      have small : bit.toNat ≤ 1 := Bool.toNat_le bit
      have half : (2 * value bits + bit.toNat) / 2 = value bits := by omega
      rw [value_concat, List.length_append, List.length_singleton, digits_succ, half, ih]
      cases bit <;> simp [Nat.testBit_zero]

/-- The first bit counts for the power of two of the bits after it, by induction on the last
bit.
-/
theorem value_cons (bit : Bool) (bits : List Bool)
    : value (bit :: bits) = bit.toNat * 2 ^ bits.length + value bits := by
  induction bits using List.reverseRecOn with
  | nil =>
      have single : value ([] ++ [bit]) = 2 * value [] + bit.toNat := value_concat [] bit
      simpa using single
  | append_singleton bits last ih =>
      have shifted : value (bit :: (bits ++ [last])) = 2 * value (bit :: bits) + last.toNat :=
        value_concat (bit :: bits) last
      have weight : bit.toNat * 2 ^ (bits.length + 1) = 2 * (bit.toNat * 2 ^ bits.length) := by
        rw [Nat.pow_succ', Nat.mul_left_comm]
      rw [shifted, ih, value_concat, List.length_append, List.length_singleton, weight]
      omega

/-- Codes of sequences of one length are ordered as the sequences are, first difference
first: a bit outweighs all bits after it.
-/
theorem value_lt_value_iff {first second : List Bool} (lengths : first.length = second.length)
    : value first < value second ↔ first < second := by
  induction first generalizing second with
  | nil =>
      have empty : second = [] := List.length_eq_zero_iff.mp lengths.symm
      subst empty
      simp
  | cons bit bits ih =>
      cases second with
      | nil => cases lengths
      | cons bit' bits' =>
          have rest : bits.length = bits'.length := Nat.succ.inj lengths
          have small := value_lt bits
          have small' := value_lt bits'
          rw [rest] at small
          have heads : bit < bit' ↔ bit.toNat < bit'.toNat := by
            cases bit <;> cases bit' <;> decide
          rw [value_cons, value_cons, rest, List.cons_lt_cons_iff, ← ih rest, heads]
          cases bit <;> cases bit' <;>
            simp only [Bool.toNat_true, Bool.toNat_false, Nat.zero_mul, Nat.one_mul, reduceCtorEq,
              false_and, true_and, or_false] <;> omega

end BitCode
