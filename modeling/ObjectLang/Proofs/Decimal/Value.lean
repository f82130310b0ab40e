import Mathlib.Algebra.Order.Field.Rat
import Mathlib.Algebra.Order.Field.Power
import Mathlib.Tactic.Linarith
import Mathlib.Tactic.Ring
import ObjectLang.Decimal.Order

/-!
The rational numbers that decimals stand for. Sums, differences and products have the values that
their names promise, at the scales that the rules of arithmetic give them, and the order of decimals
is that of their values. A decimal is known from its value, its exponent and its sign.
-/

namespace ObjectLang

theorem cast_powerOfTen (n : Nat) : (powerOfTen n : ℚ) = 10 ^ n := Nat.cast_pow 10 n

theorem withSign_eq_zero_iff {negative : Bool} {n : Nat} : withSign negative n = 0 ↔ n = 0 := by
  cases negative <;> simp [withSign]

namespace Decimal

variable {a b c d : Decimal} {e : Int}

/-- The number that a decimal stands for. -/
def value (d : Decimal) : ℚ := d.signed * 10 ^ d.exponent

theorem ten_zpow_pos (e : Int) : (0 : ℚ) < 10 ^ e := by positivity

theorem ten_zpow_ne_zero (e : Int) : (10 : ℚ) ^ e ≠ 0 := (ten_zpow_pos e).ne'

/-- At a scale that is fine enough, a decimal is a whole number of units. -/
theorem unitsAt_mul_zpow (h : e ≤ d.exponent) : d.unitsAt e * (10 : ℚ) ^ e = d.value := by
  have hscale : ((d.exponent - e).toNat : Int) + e = d.exponent := by omega
  have hpow : (10 : ℚ) ^ (d.exponent - e).toNat * 10 ^ e = 10 ^ d.exponent := by
    rw [← zpow_natCast, ← zpow_add₀ (by norm_num), hscale]
  rw [unitsAt_eq, value, ← hpow]
  push_cast [cast_powerOfTen]
  ring

theorem value_eq_zero_iff : d.value = 0 ↔ d.coefficient = 0 := by
  rw [value, mul_eq_zero, or_iff_left (ten_zpow_ne_zero _), Int.cast_eq_zero, signed,
    withSign_eq_zero_iff]

theorem value_nonpos (h : d.negative = true) : d.value ≤ 0 := by
  refine mul_nonpos_of_nonpos_of_nonneg ?_ (ten_zpow_pos _).le
  simp [signed, withSign, h]

theorem value_nonneg (h : d.negative = false) : 0 ≤ d.value := by
  refine mul_nonneg ?_ (ten_zpow_pos _).le
  simp [signed, withSign, h]

/-- The sign of a decimal is that of its value. Only zeros may have either. -/
theorem negative_of_ne_zero (h : d.value ≠ 0) : d.negative = decide (d.value < 0) := by
  cases hd : d.negative with
  | true => simpa [hd] using lt_of_le_of_ne (value_nonpos hd) h
  | false => simpa [hd] using value_nonneg hd

theorem signed_eq_of_value (he : a.exponent = b.exponent) (hv : a.value = b.value) :
    a.signed = b.signed := by
  rw [value, value, he] at hv
  exact_mod_cast mul_right_cancel₀ (ten_zpow_ne_zero _) hv

theorem coefficient_eq_natAbs (d : Decimal) : d.coefficient = d.signed.natAbs := by
  cases hd : d.negative <;> simp [signed, withSign, hd]

theorem ext_value (he : a.exponent = b.exponent) (hv : a.value = b.value)
    (hn : a.negative = b.negative) : a = b := by
  have hc : a.coefficient = b.coefficient := by
    rw [coefficient_eq_natAbs, coefficient_eq_natAbs, signed_eq_of_value he hv]
  cases a
  cases b
  simp_all

/-- Sameness asks for the value and for the scale. -/
theorem same_iff : a.same b = true ↔ a.exponent = b.exponent ∧ a.value = b.value := by
  simp only [same, Bool.and_eq_true, decide_eq_true_eq]
  constructor
  · rintro ⟨he, hs⟩
    exact ⟨he, by rw [value, value, he, hs]⟩
  · rintro ⟨he, hv⟩
    exact ⟨he, signed_eq_of_value he hv⟩

theorem commonExponent_le_left (a b : Decimal) : commonExponent a b ≤ a.exponent := min_le_left ..

theorem commonExponent_le_right (a b : Decimal) : commonExponent a b ≤ b.exponent := min_le_right ..

/-- Units of one scale are compared like the values that they make up. -/
theorem lt_iff : a.lt b = true ↔ a.value < b.value := by
  rw [lt_eq, decide_eq_true_eq, ← unitsAt_mul_zpow (commonExponent_le_left a b),
    ← unitsAt_mul_zpow (commonExponent_le_right a b), mul_lt_mul_iff_left₀ (ten_zpow_pos _),
    Int.cast_lt]

theorem le_iff : a.le b = true ↔ a.value ≤ b.value := by
  rw [le_eq, decide_eq_true_eq, ← unitsAt_mul_zpow (commonExponent_le_left a b),
    ← unitsAt_mul_zpow (commonExponent_le_right a b), mul_le_mul_iff_left₀ (ten_zpow_pos _),
    Int.cast_le]

section Operations

theorem signed_ofUnits (z : Bool) (units : Int) (e : Int) : (ofUnits z units e).signed = units := by
  rcases lt_trichotomy units 0 with h | rfl | h
  · simp [ofUnits, signed, withSign, h, h.ne, abs_of_neg h]
  · simp [ofUnits, signed, withSign]
  · simp [ofUnits, signed, withSign, h.ne', h.not_gt, abs_of_pos h]

theorem value_neg (d : Decimal) : (-d).value = -d.value := by
  show (withSign (!d.negative) d.coefficient : ℚ) * 10 ^ d.exponent = _
  cases hd : d.negative <;> simp [value, signed, withSign, hd]

theorem exponent_add (a b : Decimal) : (a + b).exponent = min a.exponent b.exponent := rfl

theorem value_add (a b : Decimal) : (a + b).value = a.value + b.value := by
  show ((ofUnits _ _ _).signed : ℚ) * 10 ^ commonExponent a b = _
  rw [signed_ofUnits, ← unitsAt_mul_zpow (commonExponent_le_left a b),
    ← unitsAt_mul_zpow (commonExponent_le_right a b)]
  push_cast
  ring

/-- A zero sum is negative only if both terms are. -/
theorem negative_add (a b : Decimal) : (a + b).negative =
    if a.value + b.value = 0 then a.negative && b.negative else decide (a.value + b.value < 0) := by
  rw [← value_add]
  by_cases h : (a + b).value = 0
  · have hcoefficient : (a + b).coefficient = 0 := value_eq_zero_iff.1 h
    have hunits : a.unitsAt (commonExponent a b) + b.unitsAt (commonExponent a b) = 0 :=
      Int.natAbs_eq_zero.1 hcoefficient
    rw [if_pos h]
    exact if_pos hunits
  · rw [if_neg h, negative_of_ne_zero h]

protected theorem sub_eq_add_neg (a b : Decimal) : a - b = a + -b := rfl

theorem exponent_sub (a b : Decimal) : (a - b).exponent = min a.exponent b.exponent := rfl

theorem value_sub (a b : Decimal) : (a - b).value = a.value - b.value := by
  rw [Decimal.sub_eq_add_neg, value_add, value_neg]
  ring

theorem exponent_mul (a b : Decimal) : (a * b).exponent = a.exponent + b.exponent := rfl

theorem negative_mul (a b : Decimal) : (a * b).negative = (a.negative != b.negative) := rfl

theorem signed_mul (a b : Decimal) : (a * b).signed = a.signed * b.signed := by
  show withSign (a.negative != b.negative) (a.coefficient * b.coefficient) = _
  cases ha : a.negative <;> cases hb : b.negative <;> simp [signed, withSign, ha, hb]

theorem value_mul (a b : Decimal) : (a * b).value = a.value * b.value := by
  rw [value, signed_mul, exponent_mul, zpow_add₀ (by norm_num)]
  push_cast
  rw [value, value]
  ring

end Operations

section Laws

theorem negative_and_eq_false (h : 0 < a.value + b.value) : (a.negative && b.negative) = false := by
  rw [Bool.eq_false_iff]
  intro hneg
  obtain ⟨ha, hb⟩ := Bool.and_eq_true_iff.1 hneg
  have hva := value_nonpos ha
  have hvb := value_nonpos hb
  linarith

protected theorem add_comm (a b : Decimal) : a + b = b + a := by
  refine ext_value (min_comm ..) ?_ ?_
  · rw [value_add, value_add, add_comm]
  · rw [negative_add, negative_add, add_comm, Bool.and_comm]

/-- A sum of three terms is zero and negative only if all three are. -/
theorem negative_add_add (a b c : Decimal) : (a + b + c).negative =
    if a.value + b.value + c.value = 0 then a.negative && b.negative && c.negative
    else decide (a.value + b.value + c.value < 0) := by
  rw [negative_add, value_add]
  by_cases h : a.value + b.value + c.value = 0
  · rw [if_pos h, if_pos h, negative_add]
    by_cases hab : a.value + b.value = 0
    · rw [if_pos hab]
    · -- What is added to a sum that is not zero has the other sign.
      have hc : c.value ≠ 0 := fun hc => hab (by rwa [hc, add_zero] at h)
      rw [if_neg hab, negative_of_ne_zero hc]
      by_cases hneg : c.value < 0
      · have hpos : 0 < a.value + b.value := by linarith
        rw [negative_and_eq_false hpos]
        simp [hpos.le]
      · simp [hneg]
  · rw [if_neg h, if_neg h]

protected theorem add_assoc (a b c : Decimal) : a + b + c = a + (b + c) := by
  refine ext_value (min_assoc ..) ?_ ?_
  · rw [value_add, value_add, value_add, value_add, add_assoc]
  · have hsum : b.value + c.value + a.value = a.value + b.value + c.value := by ring
    rw [Decimal.add_comm a (b + c), negative_add_add, negative_add_add, hsum,
      Bool.and_assoc a.negative, Bool.and_comm a.negative]

protected theorem mul_comm (a b : Decimal) : a * b = b * a := by
  refine ext_value (add_comm ..) ?_ ?_
  · rw [value_mul, value_mul, mul_comm]
  · rw [negative_mul, negative_mul, bne_comm]

protected theorem mul_assoc (a b c : Decimal) : a * b * c = a * (b * c) := by
  refine ext_value (add_assoc ..) ?_ ?_
  · simp only [value_mul, mul_assoc]
  · simp only [negative_mul, Bool.bne_assoc]

/-- Both sides of the distributive law have the same value at the same scale. The signs may differ,
where one side is a sum of two zeros. -/
theorem mul_add_same (a b c : Decimal) : (a * (b + c)).same (a * b + a * c) = true := by
  refine same_iff.2 ⟨?_, ?_⟩
  · simp only [exponent_mul, exponent_add, min_add_add_left]
  · simp only [value_mul, value_add, mul_add]

theorem value_add_sub (a b : Decimal) : (a + b - b).value = a.value := by
  rw [value_sub, value_add, add_sub_cancel_right]

end Laws

end Decimal

end ObjectLang
