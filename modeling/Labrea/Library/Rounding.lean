import Mathlib.Algebra.Ring.Int.Defs
import Mathlib.Algebra.Ring.Nat
import Mathlib.Data.Int.Basic
import Mathlib.Data.Nat.Log
import Mathlib.Tactic.Common

/-! Rounding of integers to a binary precision, nearest with ties to even.
An integer fits a precision when it is a power of two times a significand of that many
bits; rounding is the identity on exactly these.
-/

namespace Rounding

/-- `n` has at most `p` significant bits. -/
def Fits (p : Nat) (n : Int) : Prop :=
  ∃ m e, m < 2 ^ p ∧ n.natAbs = m * 2 ^ e

/-- The number of low bits of `n` beyond the precision. -/
def excess (p n : Nat) : Nat :=
  n.log2 + 1 - p

/-- Rounds away the excess bits of a magnitude: to the nearest multiple of their power of
two, and half way to the even one.
-/
def roundNat (p n : Nat) : Nat :=
  let unit := 2 ^ excess p n
  let lower := n / unit
  let rest := n % unit
  unit * (if 2 * rest < unit ∨ (2 * rest = unit ∧ lower % 2 = 0) then lower else lower + 1)

/-- Rounds the magnitude and keeps the sign. -/
def round (p : Nat) (n : Int) : Int :=
  n.sign * roundNat p n.natAbs

/-- A multiple of its excess unit is not rounded. -/
theorem roundNat_eq_self {p n : Nat} (exact : 2 ^ excess p n ∣ n) : roundNat p n = n := by
  have rest : n % 2 ^ excess p n = 0 := Nat.mod_eq_zero_of_dvd exact
  have positive : 0 < 2 ^ excess p n := Nat.two_pow_pos _
  simp only [roundNat, rest, Nat.mul_zero, positive, true_or, if_true]
  exact Nat.mul_div_cancel' exact

/-- Rounding gives a multiple of the excess unit. -/
theorem dvd_roundNat (p n : Nat) : 2 ^ excess p n ∣ roundNat p n :=
  Nat.dvd_mul_right _ _

/-- A magnitude is below the power of two of its precision and excess. -/
theorem lt_pow_excess (p n : Nat) : n < 2 ^ (p + excess p n) := by
  refine Nat.lt_of_lt_of_le Nat.lt_log2_self (Nat.pow_le_pow_right (by decide) ?_)
  simp only [excess]
  omega

/-- A magnitude fits exactly when its excess bits are zero: a factorisation over `p` bits
leaves no smaller power of two than the excess unit.
-/
theorem fits_iff_dvd (p n : Nat) : Fits p n ↔ 2 ^ excess p n ∣ n := by
  constructor
  · intro holds
    rcases holds with ⟨m, e, small, factored⟩
    rw [Int.natAbs_natCast] at factored
    by_cases zero : n = 0
    · exact zero ▸ Nat.dvd_zero _
    · have bound : n < 2 ^ (p + e) := by
        rw [factored, Nat.pow_add]
        exact Nat.mul_lt_mul_of_pos_right small (Nat.two_pow_pos e)
      have log : n.log2 < p + e := (Nat.log2_lt zero).mpr bound
      have divides : 2 ^ excess p n ∣ 2 ^ e := by
        refine Nat.pow_dvd_pow 2 ?_
        simp only [excess]
        omega
      have whole : 2 ^ e ∣ n := factored ▸ Nat.dvd_mul_left (2 ^ e) m
      exact Nat.dvd_trans divides whole
  · intro exact
    have bound := lt_pow_excess p n
    rw [Nat.pow_add] at bound
    refine ⟨n / 2 ^ excess p n, excess p n, Nat.div_lt_of_lt_mul ?_, ?_⟩
    · rwa [Nat.mul_comm]
    · rw [Int.natAbs_natCast, Nat.div_mul_cancel exact]

/-- Rounding is the identity on exactly the magnitudes that fit. -/
theorem roundNat_eq_self_iff {p n : Nat} : roundNat p n = n ↔ Fits p n := by
  rw [fits_iff_dvd]
  constructor
  · intro same
    have divides := dvd_roundNat p n
    rwa [same] at divides
  · exact roundNat_eq_self

/-- Rounding does not pass a power of two that bounds its argument. -/
theorem roundNat_le {p n k : Nat} (bound : n < 2 ^ k) : roundNat p n ≤ 2 ^ k := by
  by_cases small : excess p n ≤ k
  · have unit : 2 ^ k = 2 ^ excess p n * 2 ^ (k - excess p n) := by
      rw [← Nat.pow_add, Nat.add_sub_cancel' small]
    have lower : n / 2 ^ excess p n < 2 ^ (k - excess p n) := by
      refine Nat.div_lt_of_lt_mul ?_
      rwa [← unit]
    rw [unit, roundNat]
    refine Nat.mul_le_mul_left _ ?_
    split <;> omega
  · have zero : n = 0 := by
      by_contra nonzero
      have log : n.log2 < k := (Nat.log2_lt nonzero).mpr bound
      simp only [excess] at small
      omega
    subst zero
    rw [roundNat_eq_self (Nat.dvd_zero _)]
    exact Nat.zero_le _

/-- Rounding does not pass a power of two below its argument. -/
theorem le_roundNat {p n k : Nat} (positive : 0 < p) (bound : 2 ^ k ≤ n)
    : 2 ^ k ≤ roundNat p n := by
  have nonzero : n ≠ 0 := by
    have := Nat.two_pow_pos k
    omega
  have reaches : 2 ^ max (excess p n) k ≤ n := by
    rcases Nat.le_total (excess p n) k with above | below
    · rwa [Nat.max_eq_right above]
    · rw [Nat.max_eq_left below]
      refine Nat.le_trans (Nat.pow_le_pow_right (by decide) ?_) (Nat.log2_self_le nonzero)
      simp only [excess]
      omega
  have unit : 2 ^ max (excess p n) k
      = 2 ^ excess p n * 2 ^ (max (excess p n) k - excess p n) := by
    rw [← Nat.pow_add, Nat.add_sub_cancel' (Nat.le_max_left _ _)]
  have lower : 2 ^ (max (excess p n) k - excess p n) ≤ n / 2 ^ excess p n := by
    rw [Nat.le_div_iff_mul_le (Nat.two_pow_pos _), Nat.mul_comm, ← unit]
    exact reaches
  calc 2 ^ k
    _ ≤ 2 ^ max (excess p n) k := Nat.pow_le_pow_right (by decide) (Nat.le_max_right _ _)
    _ = 2 ^ excess p n * 2 ^ (max (excess p n) k - excess p n) := unit
    _ ≤ roundNat p n := by
        refine Nat.mul_le_mul_left _ (Nat.le_trans lower ?_)
        split <;> omega

/-- The magnitude of a rounded integer is its rounded magnitude. -/
theorem natAbs_round (p : Nat) (n : Int) : (round p n).natAbs = roundNat p n.natAbs := by
  rw [round, Int.natAbs_mul, Int.natAbs_natCast]
  by_cases zero : n = 0
  · subst zero
    simp [roundNat_eq_self (Nat.dvd_zero (2 ^ excess p 0))]
  · rw [Int.natAbs_sign_of_ne_zero zero, Nat.one_mul]

theorem fits_natAbs {p : Nat} {n : Int} : Fits p n ↔ Fits p (n.natAbs : Int) := by
  rw [Fits, Fits, Int.natAbs_natCast]

/-- Rounding is the identity on exactly the integers that fit. -/
theorem round_eq_self_iff {p : Nat} {n : Int} : round p n = n ↔ Fits p n := by
  rw [fits_natAbs, ← roundNat_eq_self_iff]
  constructor
  · intro same
    rw [← natAbs_round, same]
  · intro same
    rw [round, same, Int.sign_mul_natAbs]

/-- Integers below the precision's power of two fit. -/
theorem fits_of_natAbs_lt {p : Nat} {n : Int} (bound : n.natAbs < 2 ^ p) : Fits p n :=
  ⟨n.natAbs, 0, bound, by simp⟩

/-- Rounding keeps negative integers negative. -/
theorem round_neg {p : Nat} {n : Int} (positive : 0 < p) (negative : n < 0)
    : round p n < 0 := by
  have magnitude : 2 ^ 0 ≤ roundNat p n.natAbs := le_roundNat positive (by simp; omega)
  rw [round, Int.sign_eq_neg_one_of_neg negative]
  omega

/-- Rounding does not bring an integer down to one that fits the precision. -/
theorem lt_round {p : Nat} {m n : Int} (positive : 0 < p) (small : m < 2 ^ p)
    (less : m < n) (natural : 0 ≤ n)
    : m < round p n := by
  by_cases inside : n.natAbs < 2 ^ p
  · rwa [round_eq_self_iff.mpr (fits_of_natAbs_lt inside)]
  · have magnitude : 2 ^ p ≤ roundNat p n.natAbs := le_roundNat positive (by omega)
    have large : (2 ^ p : Int) ≤ roundNat p n.natAbs := by exact_mod_cast magnitude
    have nonzero : 0 < n := by
      have := Nat.two_pow_pos p
      omega
    rw [round, Int.sign_eq_one_of_pos nonzero, Int.one_mul]
    omega

end Rounding
