import Mathlib.Algebra.Order.Round
import Mathlib.Data.Rat.Floor
import Mathlib.Tactic.FieldSimp
import ObjectLang.Decimal.Division
import ObjectLang.Proofs.Decimal.Value

/-!
Rounding to the nearest integer, a half going to the even neighbour. An integer that is at most a
half away is nearest, and of two such integers one is even, so the rounded number is determined by
what it is asked to be. A quotient of decimals is the exact quotient, counted in units of the
dividend's last place and rounded in this way.
-/

namespace ObjectLang

/-- An integer nearest to a number, and the even one of two that are equally near. -/
structure NearestEven (x : ℚ) (n : ℤ) : Prop where
  nearest : ∀ k : ℤ, |x - n| ≤ |x - k|
  even : ∀ k : ℤ, k ≠ n → |x - k| = |x - n| → Even n

section NearestEven

variable {x : ℚ} {n k : ℤ}

theorem one_le_abs_add (x : ℚ) (h : k ≠ n) : 1 ≤ |x - k| + |x - n| := by
  have hdist : (1 : ℚ) ≤ |(n - k : ℤ)| := by
    exact_mod_cast Int.one_le_abs (sub_ne_zero.2 h.symm)
  calc (1 : ℚ) ≤ |((n - k : ℤ) : ℚ)| := by exact_mod_cast hdist
    _ = |(x - k) - (x - n)| := by push_cast; congr 1; ring
    _ ≤ |x - k| + |x - n| := abs_sub _ _

/-- What is at most a half away is nearest. Only a half away there is another that is as near. -/
theorem nearestEven_of_half (h : |x - n| ≤ 1 / 2) (heven : |x - n| = 1 / 2 → Even n) :
    NearestEven x n := by
  constructor
  · intro k
    by_cases hk : k = n
    · rw [hk]
    · have hsum := one_le_abs_add x hk
      linarith
  · intro k hk heq
    have hsum := one_le_abs_add x hk
    exact heven (by linarith)

theorem NearestEven.le_half (h : NearestEven x n) : |x - n| ≤ 1 / 2 :=
  (h.nearest (round x)).trans (abs_sub_round x)

/-- There is only one such integer: two would be neighbours, and both even. -/
theorem NearestEven.unique (h : NearestEven x n) (h' : NearestEven x k) : n = k := by
  by_contra hne
  have heq : |x - k| = |x - n| := le_antisymm (h'.nearest n) (h.nearest k)
  obtain ⟨i, hi⟩ := h.even k (Ne.symm hne) heq
  obtain ⟨j, hj⟩ := h'.even n hne heq.symm
  have hdist : |((n - k : ℤ) : ℚ)| ≤ 1 := by
    calc |((n - k : ℤ) : ℚ)| = |(x - k) - (x - n)| := by push_cast; congr 1; ring
      _ ≤ |x - k| + |x - n| := abs_sub _ _
      _ ≤ 1 := by linarith [h.le_half, h'.le_half]
  have hdist : |n - k| ≤ 1 := by exact_mod_cast hdist
  have := abs_le.1 hdist
  omega

theorem NearestEven.neg (h : NearestEven x n) : NearestEven (-x) (-n : ℤ) := by
  have hflip (k : ℤ) : |-x - k| = |x - (-k : ℤ)| := by
    rw [← abs_neg]
    push_cast
    congr 1
    ring
  refine ⟨fun k => ?_, fun k hk heq => ?_⟩
  · rw [hflip, hflip, neg_neg]
    exact h.nearest (-k)
  · rw [hflip, hflip, neg_neg] at heq
    exact (h.even (-k) (fun hne => hk (by omega)) heq).neg

/-- A fraction of naturals lies above its quotient by the remainder. -/
theorem div_eq_add_mod (p : Nat) {q : Nat} (hq : 0 < q) :
    (p : ℚ) / q = (p / q : Nat) + (p % q : Nat) / q := by
  have hq' : (q : ℚ) ≠ 0 := by exact_mod_cast hq.ne'
  field_simp
  exact_mod_cast (Nat.div_add_mod p q).symm

theorem nearestEven_below {fraction : ℚ} (h : 0 ≤ fraction) (hhalf : fraction ≤ 1 / 2)
    (heven : fraction = 1 / 2 → Even n) : NearestEven (n + fraction) n := by
  have habs : |(n : ℚ) + fraction - n| = fraction := by rw [add_sub_cancel_left, abs_of_nonneg h]
  apply nearestEven_of_half <;> rwa [habs]

theorem nearestEven_above {fraction : ℚ} (hhalf : 1 / 2 ≤ fraction) (h : fraction ≤ 1)
    (heven : fraction = 1 / 2 → Odd n) : NearestEven (n + fraction) (n + 1 : ℤ) := by
  have habs : |(n : ℚ) + fraction - (n + 1 : ℤ)| = 1 - fraction := by
    push_cast
    rw [add_sub_add_left_eq_sub, abs_of_nonpos (by linarith), neg_sub]
  apply nearestEven_of_half
  · rw [habs]
    linarith
  · rw [habs]
    exact fun heq => (heven (by linarith)).add_one

/-- The remainder, compared with half the divisor, says which neighbour is nearer. -/
theorem nearestEven_roundHalfEven (p : Nat) {q : Nat} (hq : 0 < q) :
    NearestEven (p / q) (roundHalfEven p q) := by
  have hq' : (0 : ℚ) < q := by exact_mod_cast hq
  have hnonneg : (0 : ℚ) ≤ (p % q : Nat) / q := by positivity
  have hle_one : ((p % q : Nat) / q : ℚ) ≤ 1 :=
    (div_le_one hq').2 (by exact_mod_cast (Nat.mod_lt p hq).le)
  have htwice : 2 * ((p % q : Nat) / q : ℚ) = (2 * (p % q) : Nat) / q := by
    push_cast
    ring
  rw [div_eq_add_mod p hq, roundHalfEven]
  generalize ((p % q : Nat) / q : ℚ) = fraction at *
  generalize p / q = quotient
  rcases lt_trichotomy (2 * (p % q)) q with h | h | h
  · have hhalf : 2 * fraction < 1 := by rwa [htwice, div_lt_one hq', Nat.cast_lt]
    rw [if_pos h]
    exact nearestEven_below hnonneg (by linarith) fun heq => by linarith
  · have hhalf : 2 * fraction = 1 := by rw [htwice, h, div_self hq'.ne']
    rw [if_neg h.not_lt, if_neg h.not_gt]
    split
    · next heven =>
      exact nearestEven_below hnonneg (by linarith) fun _ =>
        (Int.even_coe_nat _).2 (Nat.even_iff.2 heven)
    · next hodd =>
      exact nearestEven_above (by linarith) hle_one fun _ =>
        (Int.odd_coe_nat _).2 (Nat.odd_iff.2 (Nat.mod_two_ne_zero.1 hodd))
  · have hhalf : 1 < 2 * fraction := by rwa [htwice, one_lt_div hq', Nat.cast_lt]
    rw [if_neg h.not_gt, if_pos h]
    exact nearestEven_above (by linarith) hle_one fun heq => by linarith

end NearestEven

namespace Decimal

variable {a b : Decimal}

/-- The fraction that is rounded is the divisor's share of the dividend's coefficient. -/
theorem appendZeros_div (m n : Nat) (e : Int) :
    (appendZeros m (-e).toNat : ℚ) / appendZeros n e.toNat = m / (n * 10 ^ e) := by
  rw [appendZeros_eq, appendZeros_eq]
  push_cast [cast_powerOfTen]
  rcases Int.le_total 0 e with h | h
  · obtain ⟨k, rfl⟩ := Int.eq_ofNat_of_zero_le h
    simp
  · obtain ⟨k, hk⟩ := Int.eq_ofNat_of_zero_le (Int.neg_nonneg_of_nonpos h)
    obtain rfl : e = -k := by omega
    simp [div_mul_eq_div_div, mul_div_right_comm]

theorem exponent_div (a b : Decimal) : (a / b).exponent = a.exponent := rfl

/-- A quotient that is rounded to zero is not negative. -/
theorem negative_div (a b : Decimal) :
    (a / b).negative = ((a / b).coefficient != 0 && (a.negative != b.negative)) := rfl

theorem coefficient_div (a b : Decimal) : (a / b).coefficient =
    roundHalfEven (appendZeros a.coefficient (-b.exponent).toNat)
      (appendZeros b.coefficient b.exponent.toNat) := rfl

theorem signed_div (a b : Decimal) :
    (a / b).signed = withSign (a.negative != b.negative) (a / b).coefficient := by
  rw [signed, negative_div]
  by_cases h : (a / b).coefficient = 0
  · rw [h]
    simp [withSign]
  · rw [bne_iff_ne.2 h, Bool.true_and]

/-- The coefficient with its sign is the exact quotient, counted in units of the dividend's last
place and rounded. -/
theorem nearestEven_div (a : Decimal) (hb : b.value ≠ 0) :
    NearestEven (a.value / b.value / 10 ^ a.exponent) (a / b).signed := by
  have hcoefficient : 0 < b.coefficient :=
    Nat.pos_of_ne_zero fun h => hb (value_eq_zero_iff.2 h)
  have hdivisor : 0 < appendZeros b.coefficient b.exponent.toNat := by
    rw [appendZeros_eq]
    exact Nat.mul_pos hcoefficient (powerOfTen_pos _)
  have hround :
      NearestEven (a.coefficient / (b.coefficient * 10 ^ b.exponent)) (a / b).coefficient := by
    rw [coefficient_div, ← appendZeros_div]
    exact nearestEven_roundHalfEven _ hdivisor
  have hquotient : a.value / b.value / 10 ^ a.exponent =
      (withSign a.negative a.coefficient : ℚ) /
        (withSign b.negative b.coefficient * 10 ^ b.exponent) := by
    have h10 := ten_zpow_ne_zero a.exponent
    rw [value, value, signed, signed]
    field_simp
  rw [signed_div, hquotient]
  cases a.negative <;> cases b.negative
  · simpa [withSign] using hround
  · simpa [withSign, div_neg] using hround.neg
  · simpa [withSign, neg_div] using hround.neg
  · simpa [withSign, neg_div_neg_eq] using hround

end Decimal

end ObjectLang
