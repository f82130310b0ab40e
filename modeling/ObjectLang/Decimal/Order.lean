import ObjectLang.Decimal.Basic

/-!
Two ways to compare decimals. The order looks at the value alone, so it takes the two zeros, or
`1.0` and `1.00`, for one number. Sameness asks for the same scale besides.

Numbers are compared in whole units of the finer scale. The coarser of two numbers may have far more
of them than can be written down; `unitsBeside` stops where the answer is clear, and `lt_eq` and
`le_eq` say that the answer is right.
-/

namespace ObjectLang.Decimal

/-- The units of `a`, as far as they matter beside those of `b`: with as many zeros as the
coefficient of `b` has binary digits, every number but zero is larger than that. -/
def unitsBeside (a b : Decimal) : Int :=
  withSign a.negative
    (appendZeros a.coefficient (min (a.exponent - b.exponent).toNat (b.coefficient.log2 + 1)))

/-- The value of `a` is less than that of `b`. -/
def lt (a b : Decimal) : Bool := a.unitsBeside b < b.unitsBeside a

/-- The value of `a` is at most that of `b`. -/
def le (a b : Decimal) : Bool := a.unitsBeside b ≤ b.unitsBeside a

/-- Equal values at equal scales. -/
def same (a b : Decimal) : Bool := a.exponent = b.exponent && a.signed = b.signed

theorem same_self (d : Decimal) : d.same d = true := by simp [same]

theorem powerOfTen_mono {m n : Nat} (h : m ≤ n) : powerOfTen m ≤ powerOfTen n :=
  Nat.pow_le_pow_right (by decide) h

theorem lt_powerOfTen_log2 (n : Nat) : n < powerOfTen (n.log2 + 1) :=
  Nat.lt_of_lt_of_le Nat.lt_log2_self (Nat.pow_le_pow_left (by decide) _)

/-- Beyond the cap, more zeros change no comparison with numbers of at most `n`. -/
theorem withSign_min_lt_iff (negative : Bool) (c k n : Nat) (y : Int) (h : y.natAbs = n) :
    (withSign negative (appendZeros c (min k (n.log2 + 1))) < y ↔
      withSign negative (appendZeros c k) < y) ∧
    (y < withSign negative (appendZeros c (min k (n.log2 + 1))) ↔
      y < withSign negative (appendZeros c k)) := by
  rcases Nat.le_total k (n.log2 + 1) with hk | hk
  · simp [Nat.min_eq_left hk]
  · rw [Nat.min_eq_right hk, appendZeros_eq, appendZeros_eq]
    rcases Nat.eq_zero_or_pos c with rfl | hc
    · simp
    · have hn : n < c * powerOfTen (n.log2 + 1) :=
        Nat.lt_of_lt_of_le (lt_powerOfTen_log2 n) (Nat.le_mul_of_pos_left _ hc)
      have hm : c * powerOfTen (n.log2 + 1) ≤ c * powerOfTen k :=
        Nat.mul_le_mul_left c (powerOfTen_mono hk)
      cases negative <;> simp only [withSign, Bool.false_eq_true, if_false, if_true] <;> omega

theorem natAbs_withSign_appendZeros_zero (negative : Bool) (n : Nat) :
    (withSign negative (appendZeros n 0)).natAbs = n := by
  cases negative <;> simp [withSign, appendZeros_eq, powerOfTen]

/-- Where the answer is clear is where it is the answer at the common scale. -/
theorem unitsBeside_lt_iff (a b : Decimal) :
    a.unitsBeside b < b.unitsBeside a ↔
      a.unitsAt (commonExponent a b) < b.unitsAt (commonExponent a b) := by
  unfold unitsBeside unitsAt commonExponent
  rcases Int.le_total a.exponent b.exponent with h | h
  · rw [Int.min_eq_left h, Int.toNat_eq_zero.2 (Int.sub_nonpos_of_le h), Int.sub_self,
      Nat.zero_min]
    exact (withSign_min_lt_iff _ _ _ _ _ (natAbs_withSign_appendZeros_zero ..)).2
  · rw [Int.min_eq_right h, Int.toNat_eq_zero.2 (Int.sub_nonpos_of_le h), Int.sub_self,
      Nat.zero_min]
    exact (withSign_min_lt_iff _ _ _ _ _ (natAbs_withSign_appendZeros_zero ..)).1

theorem lt_eq (a b : Decimal) :
    a.lt b = decide (a.unitsAt (commonExponent a b) < b.unitsAt (commonExponent a b)) := by
  simp only [lt, unitsBeside_lt_iff]

theorem le_eq (a b : Decimal) :
    a.le b = decide (a.unitsAt (commonExponent a b) ≤ b.unitsAt (commonExponent a b)) := by
  have h := unitsBeside_lt_iff b a
  rw [commonExponent, Int.min_comm, ← commonExponent] at h
  simp only [le, ← Int.not_lt, h]

end ObjectLang.Decimal
