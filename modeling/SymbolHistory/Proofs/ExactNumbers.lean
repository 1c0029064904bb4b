/-
# Proofs.ExactNumbers -- numbers with few digits are computed exactly

An operation gives the number of 53 bits that is nearest to its exact result.
So it gives the exact result where that is a whole number below `2 ^ 53`, scaled
by any power of two (`toRat_ofRatio`): whole numbers (`toRat_ofNat`), quotients
without a remainder (`toRat_div`) and products of whole numbers (`toRat_mul`).
-/
import Mathlib.Algebra.Order.Field.Power
import Mathlib.Data.Rat.Cast.Order
import Mathlib.Tactic.FieldSimp
import Mathlib.Tactic.Linarith
import Mathlib.Tactic.Positivity
import Mathlib.Tactic.Ring
import SymbolHistory.Binary64

set_option autoImplicit false

namespace SymbolHistory

namespace Binary64

/-- The number that a mantissa and an exponent stand for. -/
def toRat (a : Binary64) : ℚ := a.mantissa * 2 ^ a.exponent

/-! ## Scaling and rounding -/

theorem scale_pos {den : Nat} (num : Nat) (positive : 0 < den) (e : Int) : 0 < (scale num den e).2 := by
  cases e with
  | ofNat k => exact Nat.mul_pos positive (Nat.pow_pos (by decide))
  | negSucc k => exact positive

theorem scale_ratio (num den : Nat) (e : Int) :
    ((scale num den e).1 : ℚ) / (scale num den e).2 = num / den * 2 ^ (-e) := by
  cases e with
  | ofNat k =>
      have power : (2 : ℚ) ^ (-Int.ofNat k) = ((2 : ℚ) ^ k)⁻¹ := by
        rw [zpow_neg, Int.ofNat_eq_natCast, zpow_natCast]
      rw [power, scale, Nat.pow_eq, Nat.cast_mul, Nat.cast_pow, Nat.cast_ofNat, div_mul_eq_div_div,
        div_eq_mul_inv _ ((2 : ℚ) ^ k)]
  | negSucc k =>
      have power : (2 : ℚ) ^ (-Int.negSucc k) = (2 : ℚ) ^ (k + 1) := by
        rw [Int.neg_negSucc]
        norm_cast
      rw [power, scale, Nat.pow_eq, Nat.cast_mul, Nat.cast_pow, Nat.cast_ofNat, mul_div_right_comm]

/-- A quotient without a remainder is not changed by rounding. -/
theorem roundDiv_mul (q : Nat) {den : Nat} (positive : 0 < den) : roundDiv (q * den) den = q := by
  have whole : q * den / den = q := Nat.mul_div_cancel q positive
  have none : q * den % den = 0 := Nat.mul_mod_left q den
  have zero : ((0 : Nat) == den) = false := by
    rw [beq_eq_false_iff_ne]
    exact Nat.ne_of_lt positive
  simp [roundDiv, whole, none, zero]

/-! ## The exponent -/

/-- The exponent that leaves 53 bits of a quotient. -/
theorem exponent_of_ratio {num den : Nat} (positive : 0 < num) (positive' : 0 < den) :
    (2 : ℚ) ^ 52 < num / den * 2 ^ (-(Int.ofNat (Nat.log2 num) - Int.ofNat (Nat.log2 den) - 53)) ∧
      (num : ℚ) / den * 2 ^ (-(Int.ofNat (Nat.log2 num) - Int.ofNat (Nat.log2 den) - 53)) < 2 ^ 54 := by
  have low : ((2 : ℚ) ^ Nat.log2 num) ≤ num := by exact_mod_cast Nat.log2_self_le (Nat.ne_of_gt positive)
  have high : (num : ℚ) < 2 ^ (Nat.log2 num + 1) := by exact_mod_cast Nat.lt_log2_self
  have low' : ((2 : ℚ) ^ Nat.log2 den) ≤ den := by exact_mod_cast Nat.log2_self_le (Nat.ne_of_gt positive')
  have high' : (den : ℚ) < 2 ^ (Nat.log2 den + 1) := by exact_mod_cast Nat.lt_log2_self
  have cast : (0 : ℚ) < den := by exact_mod_cast positive'
  have power : (2 : ℚ) ^ (-(Int.ofNat (Nat.log2 num) - Int.ofNat (Nat.log2 den) - 53)) =
      2 ^ Nat.log2 den * 2 ^ 53 / 2 ^ Nat.log2 num := by
    rw [show -(Int.ofNat (Nat.log2 num) - Int.ofNat (Nat.log2 den) - 53) =
      (Nat.log2 den : ℤ) + 53 - (Nat.log2 num : ℤ) from by simp; ring, zpow_sub₀ (by norm_num), zpow_add₀ (by norm_num)]
    norm_cast
  have bits : (0 : ℚ) < 2 ^ Nat.log2 num := by positivity
  have bits' : (0 : ℚ) < 2 ^ Nat.log2 den := by positivity
  rw [power, div_mul_div_comm]
  constructor
  · rw [lt_div_iff₀ (by positivity)]
    calc (2 : ℚ) ^ 52 * (den * 2 ^ Nat.log2 num) < 2 ^ 52 * (2 ^ (Nat.log2 den + 1) * 2 ^ Nat.log2 num) := by gcongr
      _ = 2 ^ Nat.log2 num * (2 ^ Nat.log2 den * 2 ^ 53) := by ring
      _ ≤ num * (2 ^ Nat.log2 den * 2 ^ 53) := by gcongr
  · rw [div_lt_iff₀ (by positivity)]
    calc (num : ℚ) * (2 ^ Nat.log2 den * 2 ^ 53) < 2 ^ (Nat.log2 num + 1) * (2 ^ Nat.log2 den * 2 ^ 53) := by gcongr
      _ = 2 ^ 54 * (2 ^ Nat.log2 den * 2 ^ Nat.log2 num) := by ring
      _ ≤ 2 ^ 54 * (den * 2 ^ Nat.log2 num) := by gcongr

/-! ## Exact results -/

/-- Scaled to 53 bits, a number of no more bits is whole. -/
theorem whole_of_bits {n : Nat} {j e : Int} (small : n < 2 ^ 53) (low : (2 : ℚ) ^ 52 ≤ n * 2 ^ j * 2 ^ (-e)) :
    ∃ m : Nat, (n : ℚ) * 2 ^ j * 2 ^ (-e) = m := by
  rw [mul_assoc, ← zpow_add₀ (by norm_num)] at low ⊢
  rcases lt_or_ge (j + -e) 0 with negative | natural
  · -- halved at least once, the number is too small
    exfalso
    have half : (2 : ℚ) ^ (j + -e) ≤ 2 ^ (-1 : Int) := zpow_le_zpow_right₀ (by norm_num) (by omega)
    have most : (n : ℚ) < 2 ^ 53 := by exact_mod_cast small
    have halved : (n : ℚ) * 2 ^ (j + -e) ≤ n * 2 ^ (-1 : Int) := mul_le_mul_of_nonneg_left half (Nat.cast_nonneg n)
    rw [zpow_neg_one] at halved
    linarith
  · obtain ⟨k, power⟩ := Int.eq_ofNat_of_zero_le natural
    refine ⟨n * 2 ^ k, ?_⟩
    rw [power, zpow_natCast]
    push_cast
    ring

/-- What is left to round is a whole number of 53 bits. -/
theorem round_scale {num den n : Nat} {j e : Int} (positive : 0 < den) (small : n < 2 ^ 53)
    (whole : (num : ℚ) / den = n * 2 ^ j) (low : (2 : ℚ) ^ 52 ≤ num / den * 2 ^ (-e))
    (high : (num : ℚ) / den * 2 ^ (-e) < 2 ^ 53) :
    (roundDiv (scale num den e).1 (scale num den e).2 : ℚ) * 2 ^ e = n * 2 ^ j ∧
      roundDiv (scale num den e).1 (scale num den e).2 < 2 ^ 53 := by
  have ratio := scale_ratio num den e
  have below := scale_pos num positive e
  rw [whole] at low high ratio
  obtain ⟨m, integral⟩ := whole_of_bits small low
  have divides : (scale num den e).1 = m * (scale num den e).2 := by
    have cast : ((scale num den e).2 : ℚ) ≠ 0 := by exact_mod_cast Nat.ne_of_gt below
    rw [integral, div_eq_iff cast] at ratio
    exact_mod_cast ratio
  rw [divides, roundDiv_mul m below, ← integral]
  refine ⟨?_, ?_⟩
  · rw [mul_assoc, ← zpow_add₀ (by norm_num), neg_add_cancel, zpow_zero, mul_one]
  · rw [integral] at high
    exact_mod_cast high

/-- A quotient that is a whole number below `2 ^ 53`, scaled by a power of two, is kept as it is. -/
theorem toRat_ofRatio {num den n : Nat} {j : Int} (positive : 0 < den) (small : n < 2 ^ 53)
    (whole : (num : ℚ) / den = n * 2 ^ j) (shift : Int) : (ofRatio num den shift).toRat = n * 2 ^ (j + shift) := by
  rw [zpow_add₀ (by norm_num), ← mul_assoc]
  rcases Nat.eq_zero_or_pos num with rfl | some
  · rw [← whole, Nat.cast_zero, zero_div, zero_mul]
    simp [ofRatio, toRat]
  · obtain ⟨low, high⟩ := exponent_of_ratio some positive
    have notZero : (num == 0) = false := beq_eq_false_iff_ne.mpr (Nat.ne_of_gt some)
    rw [ofRatio, notZero]
    generalize Int.ofNat (Nat.log2 num) - Int.ofNat (Nat.log2 den) - 53 = near at low high ⊢
    have rounded : ∀ e : Int, (2 : ℚ) ^ 52 ≤ num / den * 2 ^ (-e) → (num : ℚ) / den * 2 ^ (-e) < 2 ^ 53 →
        (if roundDiv (scale num den e).1 (scale num den e).2 == 0x20000000000000 then
          (⟨0x10000000000000, e + 1 + shift⟩ : Binary64)
          else ⟨roundDiv (scale num den e).1 (scale num den e).2, e + shift⟩).toRat = n * 2 ^ j * 2 ^ shift := by
      intro e low high
      obtain ⟨exact, bits⟩ := round_scale positive small whole low high
      have less : (roundDiv (scale num den e).1 (scale num den e).2 == 0x20000000000000) = false :=
        beq_eq_false_iff_ne.mpr (Nat.ne_of_lt bits)
      rw [less, ← exact, mul_assoc, ← zpow_add₀ (by norm_num)]
      rfl
    have ratio := scale_ratio num den near
    have below := scale_pos num positive near
    have cast : (0 : ℚ) < (scale num den near).2 := by exact_mod_cast below
    by_cases fits : (scale num den near).1 / (scale num den near).2 < 0x20000000000000
    · simp only [if_pos fits]
      refine rounded near low.le ?_
      rw [← ratio, div_lt_iff₀ cast]
      exact_mod_cast (Nat.div_lt_iff_lt_mul below).mp fits
    · simp only [if_neg fits]
      have large : (2 : ℚ) ^ 53 ≤ num / den * 2 ^ (-near) := by
        rw [← ratio, le_div_iff₀ cast]
        exact_mod_cast (Nat.le_div_iff_mul_le below).mp (Nat.le_of_not_lt fits)
      have half : (2 : ℚ) ^ (-(near + 1)) = 2 ^ (-near) / 2 := by
        rw [neg_add, zpow_add₀ (by norm_num), zpow_neg_one, div_eq_mul_inv]
      refine rounded (near + 1) ?_ ?_
      · rw [half]
        linarith
      · rw [half]
        linarith

theorem toRat_ofNat {n : Nat} (small : n < 2 ^ 53) : (ofNat n).toRat = n := by
  have exact := @toRat_ofRatio n 1 n 0 (by decide) small (by simp) 0
  simpa [ofNat] using exact

theorem toRat_div {q d : Nat} (positive : 0 < d) (small : q < 2 ^ 53) : (div (q * d) d).toRat = q := by
  have divides : ((q * d : Nat) : ℚ) / d = q * 2 ^ (0 : Int) := by
    rw [zpow_zero, mul_one, Nat.cast_mul, mul_div_cancel_right₀]
    exact_mod_cast Nat.ne_of_gt positive
  have exact := toRat_ofRatio positive small divides 0
  simpa [div] using exact

theorem toRat_mul {a b : Binary64} {m n : Nat} (left : a.toRat = m) (right : b.toRat = n)
    (small : m * n < 2 ^ 53) : (mul a b).toRat = (m * n : Nat) := by
  have product : ((a.mantissa * b.mantissa : Nat) : ℚ) / (1 : Nat) =
      (m * n : Nat) * 2 ^ (-(a.exponent + b.exponent)) := by
    rw [Nat.cast_mul, Nat.cast_mul, ← left, ← right, toRat, toRat, neg_add, zpow_add₀ (by norm_num), zpow_neg, zpow_neg]
    have first : (2 : ℚ) ^ a.exponent ≠ 0 := by positivity
    have second : (2 : ℚ) ^ b.exponent ≠ 0 := by positivity
    field_simp
    simp
  have exact := toRat_ofRatio (by decide) small product (a.exponent + b.exponent)
  simpa [mul] using exact

theorem floor_of_toRat {a : Binary64} {n : Nat} (exact : a.toRat = n) : a.floor = n := by
  obtain ⟨mantissa, exponent⟩ := a
  cases exponent with
  | ofNat k =>
      have same : (mantissa : ℚ) * 2 ^ k = n := by
        rw [← exact, toRat, Int.ofNat_eq_natCast, zpow_natCast]
      exact_mod_cast same
  | negSucc k =>
      have same : (mantissa : ℚ) = n * 2 ^ (k + 1) := by
        rw [← exact, toRat, zpow_negSucc, mul_assoc, inv_mul_cancel₀ (by positivity), mul_one]
      have whole : mantissa = n * 2 ^ (k + 1) := by exact_mod_cast same
      change mantissa / 2 ^ (k + 1) = n
      rw [whole]
      exact Nat.mul_div_cancel n (Nat.pow_pos (by decide))

end Binary64

end SymbolHistory
