import Mathlib.Algebra.Order.Group.Int
import Mathlib.Tactic.Ring
import ObjectLang.Proofs.Decimal.Rounding
import ObjectLang.Proofs.Evaluation.Results

/-!
Numbers in programs. A quotient is rounded, towards zero for integers and to the nearest number of
the dividend's scale for decimals. Sums, differences and products of decimals are exact, and satisfy
the laws of arithmetic: some as decimals, with sign and scale, others as far as programs can tell.
-/

namespace ObjectLang

section TowardsZero

/-- The quotient that leaves a remainder smaller than `b`, with the sign of `a`. -/
structure TowardsZero (a b q : ℤ) : Prop where
  small : |a - q * b| < |b|
  sign : a - q * b = 0 ∨ (a - q * b).sign = a.sign

/-- A remainder of the sign of the dividend is the one of the division that cuts off. -/
theorem towardsZero_iff {a b q : ℤ} (hb : b ≠ 0) : TowardsZero a b q ↔ q = a.tdiv b := by
  constructor
  · rintro ⟨hsmall, hsign⟩
    rw [Int.abs_eq_natAbs b, abs_lt] at hsmall
    have hrest : (a - q * b) + b * q = a := by ring
    rcases le_total 0 a with ha | ha
    · have hnonneg : 0 ≤ a - q * b := by
        rcases hsign with h | h
        · exact h.ge
        · rw [← Int.sign_nonneg_iff] at ha ⊢
          rwa [h]
      exact ((Int.tdiv_tmod_unique ha hb).2 ⟨hrest, hnonneg, hsmall.2⟩).1.symm
    · have hnonpos : a - q * b ≤ 0 := by
        rcases hsign with h | h
        · exact h.le
        · rw [← Int.sign_nonpos_iff] at ha ⊢
          rwa [h]
      exact ((Int.tdiv_tmod_unique' ha hb).2 ⟨hrest, hsmall.1, hnonpos⟩).1.symm
  · rintro rfl
    have hrest : a - a.tdiv b * b = a.tmod b := by rw [Int.tmod_def, mul_comm]
    constructor
    · rw [hrest, Int.abs_eq_natAbs, Int.abs_eq_natAbs, Int.natAbs_tmod, Nat.cast_lt]
      exact Nat.mod_lt _ (Int.natAbs_pos.2 hb)
    · rw [hrest, Int.sign_tmod]
      split
      · next h => exact .inl (Int.tmod_eq_zero_of_dvd h)
      · exact .inr rfl

end TowardsZero

namespace Evaluation

variable {s : ScopeId} {m m₁ m₂ : Machine} {x y z : Expr} {a b c : Decimal}

section Division

theorem evaluates_div_integers {a b : Int} (hx : Evaluates s (.expr x) m (.ok (.integer a) m₁))
    (hy : Evaluates s (.expr y) m₁ (.ok (.integer b) m₂)) :
    Evaluates s (.expr (.binary "/" x y)) m
      (if b = 0 then .error (.error .divisionByZero) m₂ else .ok (.integer (a.tdiv b)) m₂) := by
  have happly : divide (.integer a) (.integer b) m₂ =
      if b = 0 then .error (.error .divisionByZero) m₂ else .ok (.integer (a.tdiv b)) m₂ := by
    rw [divide]
    split <;> rfl
  rw [← happly]
  exact evaluates_apply .div hx hy

theorem evaluates_div_decimals (hx : Evaluates s (.expr x) m (.ok (.decimal a) m₁))
    (hy : Evaluates s (.expr y) m₁ (.ok (.decimal b) m₂)) :
    Evaluates s (.expr (.binary "/" x y)) m
      (if b.value = 0 then .error (.error .divisionByZero) m₂ else .ok (.decimal (a / b)) m₂) := by
  have hzero : b.isZero = true ↔ b.value = 0 := by
    rw [Decimal.value_eq_zero_iff, Decimal.isZero, decide_eq_true_iff]
  have happly : divide (.decimal a) (.decimal b) m₂ =
      if b.value = 0 then .error (.error .divisionByZero) m₂ else .ok (.decimal (a / b)) m₂ := by
    rw [divide]
    simp only [hzero]
    split <;> rfl
  rw [← happly]
  exact evaluates_apply .div hx hy

/-- A run that fails where a number is zero, and gives a value otherwise, fails exactly there. -/
theorem fails_iff {p : Program} {v : Value} {zero : Prop} [Decidable zero]
    (h : Evaluates s p m (if zero then .error (.error .divisionByZero) m₂ else .ok v m₂)) :
    (∃ m', Evaluates s p m (.error (.error .divisionByZero) m')) ↔ zero := by
  constructor
  · rintro ⟨m', hfails⟩
    by_contra hzero
    rw [if_neg hzero] at h
    exact nomatch hfails.unique h
  · intro hzero
    rw [if_pos hzero] at h
    exact ⟨m₂, h⟩

/-- Division is correctly rounded. A quotient of integers is the one that is cut off towards zero. A
quotient of decimals has the scale of the dividend, and counts the units of that scale that are
nearest to the exact quotient, a half going to the even neighbour; its sign is that of the exact
quotient, but for a zero, which is not negative. Only a divisor that is zero, of either sign and of
any scale, makes a division fail. -/
theorem division_rounds :
    (∀ a b : Int, Evaluates s (.expr x) m (.ok (.integer a) m₁) →
      Evaluates s (.expr y) m₁ (.ok (.integer b) m₂) →
      ((∃ m', Evaluates s (.expr (.binary "/" x y)) m (.error (.error .divisionByZero) m')) ↔
        b = 0) ∧
      (b ≠ 0 → ∃ q, Evaluates s (.expr (.binary "/" x y)) m (.ok (.integer q) m₂) ∧
        ∀ k, TowardsZero a b k ↔ k = q)) ∧
    (∀ a b : Decimal, Evaluates s (.expr x) m (.ok (.decimal a) m₁) →
      Evaluates s (.expr y) m₁ (.ok (.decimal b) m₂) →
      ((∃ m', Evaluates s (.expr (.binary "/" x y)) m (.error (.error .divisionByZero) m')) ↔
        b.value = 0) ∧
      (b.value ≠ 0 → ∃ q : Decimal, Evaluates s (.expr (.binary "/" x y)) m (.ok (.decimal q) m₂) ∧
        q.exponent = a.exponent ∧
        (∀ k, NearestEven (a.value / b.value / 10 ^ a.exponent) k ↔ k = q.signed) ∧
        q.negative = (q.coefficient != 0 && (a.negative != b.negative)))) := by
  refine ⟨fun a b hx hy => ?_, fun a b hx hy => ?_⟩
  · have hdiv := evaluates_div_integers hx hy
    refine ⟨fails_iff hdiv, fun hb => ⟨a.tdiv b, ?_, fun k => towardsZero_iff hb⟩⟩
    rwa [if_neg hb] at hdiv
  · have hdiv := evaluates_div_decimals hx hy
    have hround (hb : b.value ≠ 0) (k : ℤ) :
        NearestEven (a.value / b.value / 10 ^ a.exponent) k ↔ k = (a / b).signed :=
      ⟨fun hk => hk.unique (Decimal.nearestEven_div a hb),
        fun hk => hk ▸ Decimal.nearestEven_div a hb⟩
    refine ⟨fails_iff hdiv, fun hb => ⟨a / b, ?_, Decimal.exponent_div a b, hround hb,
      Decimal.negative_div a b⟩⟩
    rwa [if_neg hb] at hdiv

/-- `-7 / 2` is `-3`, `-5 / 2.0` is `-2`, the even neighbour of `-2.5`, and `1 / -0.00` fails. -/
theorem division_rounds_halves :
    let start : Machine := ⟨∅, #[], #[]⟩
    let quotient (a b : Literal) : Program := .expr (.binary "/" (.literal a) (.literal b))
    Evaluates 0 (quotient (.integer (-7)) (.integer 2)) start (.ok (.integer (-3)) start) ∧
    (∃ q : Decimal, Evaluates 0 (quotient (.decimal ⟨true, 5, 0⟩) (.decimal ⟨false, 20, -1⟩)) start
      (.ok (.decimal q) start) ∧ q.exponent = 0 ∧ q.signed = -2) ∧
    ∃ m', Evaluates 0 (quotient (.decimal ⟨false, 1, 0⟩) (.decimal ⟨true, 0, -2⟩)) start
      (.error (.error .divisionByZero) m') := by
  intro start quotient
  have hliteral (value : Literal) :
      Evaluates 0 (.expr (.literal value)) start (.ok value.toValue start) :=
    evaluates_literal 0 start value
  refine ⟨?_, ?_, ?_⟩
  · obtain ⟨q, hq, hrounded⟩ := (division_rounds.1 (-7) 2 (hliteral (.integer (-7)))
      (hliteral (.integer 2))).2 (by decide)
    obtain rfl : -3 = q := (hrounded (-3)).1 ⟨by decide, by decide⟩
    exact hq
  · have hdivisor : Decimal.value ⟨false, 20, -1⟩ = 2 := by
      norm_num [Decimal.value, Decimal.signed, withSign]
    have hdividend : Decimal.value ⟨true, 5, 0⟩ = -5 := by
      norm_num [Decimal.value, Decimal.signed, withSign]
    obtain ⟨q, hq, hexponent, hrounded, -⟩ := (division_rounds.2 ⟨true, 5, 0⟩ ⟨false, 20, -1⟩
      (hliteral (.decimal ⟨true, 5, 0⟩)) (hliteral (.decimal ⟨false, 20, -1⟩))).2
      (by rw [hdivisor]; norm_num)
    refine ⟨q, hq, hexponent, ((hrounded (-2)).1 ?_).symm⟩
    rw [hdividend, hdivisor]
    exact nearestEven_of_half (by norm_num [abs_le]) fun _ => by decide
  · exact (division_rounds.2 ⟨false, 1, 0⟩ ⟨true, 0, -2⟩ (hliteral (.decimal ⟨false, 1, 0⟩))
      (hliteral (.decimal ⟨true, 0, -2⟩))).1.2 (Decimal.value_eq_zero_iff.2 rfl)

end Division

section Exact

theorem evaluates_add (hx : Evaluates s (.expr x) m (.ok (.decimal a) m₁))
    (hy : Evaluates s (.expr y) m₁ (.ok (.decimal b) m₂)) :
    Evaluates s (.expr (.binary "+" x y)) m (.ok (.decimal (a + b)) m₂) :=
  evaluates_apply .add hx hy

theorem evaluates_sub (hx : Evaluates s (.expr x) m (.ok (.decimal a) m₁))
    (hy : Evaluates s (.expr y) m₁ (.ok (.decimal b) m₂)) :
    Evaluates s (.expr (.binary "-" x y)) m (.ok (.decimal (a - b)) m₂) :=
  evaluates_apply .sub hx hy

theorem evaluates_mul (hx : Evaluates s (.expr x) m (.ok (.decimal a) m₁))
    (hy : Evaluates s (.expr y) m₁ (.ok (.decimal b) m₂)) :
    Evaluates s (.expr (.binary "*" x y)) m (.ok (.decimal (a * b)) m₂) :=
  evaluates_apply .mul hx hy

theorem evaluates_eq (hx : Evaluates s (.expr x) m (.ok (.decimal a) m₁))
    (hy : Evaluates s (.expr y) m₁ (.ok (.decimal b) m₂)) :
    Evaluates s (.expr (.binary "==" x y)) m (.ok (.boolean (a.same b)) m₂) :=
  evaluates_apply .eq hx hy

theorem evaluates_le (hx : Evaluates s (.expr x) m (.ok (.decimal a) m₁))
    (hy : Evaluates s (.expr y) m₁ (.ok (.decimal b) m₂)) :
    Evaluates s (.expr (.binary "<=" x y)) m (.ok (.boolean (a.le b)) m₂) :=
  evaluates_apply .le hx hy

theorem evaluates_ge (hx : Evaluates s (.expr x) m (.ok (.decimal a) m₁))
    (hy : Evaluates s (.expr y) m₁ (.ok (.decimal b) m₂)) :
    Evaluates s (.expr (.binary ">=" x y)) m (.ok (.boolean (b.le a)) m₂) :=
  evaluates_apply .ge hx hy

/-- Two expressions come to one decimal, with the same sign, coefficient and exponent. -/
def SameDecimal (s : ScopeId) (m : Machine) (p q : Expr) : Prop :=
  ∃ d : Decimal, Evaluates s (.expr p) m (.ok (.decimal d) m) ∧
    Evaluates s (.expr q) m (.ok (.decimal d) m)

/-- A condition comes out true. -/
def Holds (s : ScopeId) (m : Machine) (p : Expr) : Prop :=
  Evaluates s (.expr p) m (.ok (.boolean true) m)

/-- Sums, differences and products of decimals are exact, at the finer of both scales or at the sum
of the scales. Sums and products are commutative and associative down to the sign of a zero. The law
of distribution holds as far as `==` can tell, and a subtraction takes back an addition as far as the
order can tell. -/
theorem decimals_exact (hx : Evaluates s (.expr x) m (.ok (.decimal a) m))
    (hy : Evaluates s (.expr y) m (.ok (.decimal b) m))
    (hz : Evaluates s (.expr z) m (.ok (.decimal c) m)) :
    (∃ d : Decimal, Evaluates s (.expr (.binary "+" x y)) m (.ok (.decimal d) m) ∧
      d.value = a.value + b.value ∧ d.exponent = min a.exponent b.exponent) ∧
    (∃ d : Decimal, Evaluates s (.expr (.binary "-" x y)) m (.ok (.decimal d) m) ∧
      d.value = a.value - b.value ∧ d.exponent = min a.exponent b.exponent) ∧
    (∃ d : Decimal, Evaluates s (.expr (.binary "*" x y)) m (.ok (.decimal d) m) ∧
      d.value = a.value * b.value ∧ d.exponent = a.exponent + b.exponent) ∧
    SameDecimal s m (.binary "+" x y) (.binary "+" y x) ∧
    SameDecimal s m (.binary "+" (.binary "+" x y) z) (.binary "+" x (.binary "+" y z)) ∧
    SameDecimal s m (.binary "*" x y) (.binary "*" y x) ∧
    SameDecimal s m (.binary "*" (.binary "*" x y) z) (.binary "*" x (.binary "*" y z)) ∧
    Holds s m (.binary "==" (.binary "*" x (.binary "+" y z))
      (.binary "+" (.binary "*" x y) (.binary "*" x z))) ∧
    Holds s m (.binary "<=" (.binary "-" (.binary "+" x y) y) x) ∧
    Holds s m (.binary ">=" (.binary "-" (.binary "+" x y) y) x) := by
  have hadd := evaluates_add hx hy
  have hmul := evaluates_mul hx hy
  have hback := evaluates_sub hadd hy
  have haddComm := evaluates_add hy hx
  have haddAssoc := evaluates_add hx (evaluates_add hy hz)
  have hmulComm := evaluates_mul hy hx
  have hmulAssoc := evaluates_mul hx (evaluates_mul hy hz)
  have hdistrib := evaluates_eq (evaluates_mul hx (evaluates_add hy hz))
    (evaluates_add hmul (evaluates_mul hx hz))
  have hle := evaluates_le hback hx
  have hge := evaluates_ge hback hx
  rw [Decimal.add_comm] at haddComm
  rw [← Decimal.add_assoc] at haddAssoc
  rw [Decimal.mul_comm] at hmulComm
  rw [← Decimal.mul_assoc] at hmulAssoc
  rw [Decimal.mul_add_same] at hdistrib
  rw [Decimal.le_iff.2 (Decimal.value_add_sub a b).le] at hle
  rw [Decimal.le_iff.2 (Decimal.value_add_sub a b).ge] at hge
  exact ⟨⟨a + b, hadd, Decimal.value_add a b, Decimal.exponent_add a b⟩,
    ⟨a - b, evaluates_sub hx hy, Decimal.value_sub a b, Decimal.exponent_sub a b⟩,
    ⟨a * b, hmul, Decimal.value_mul a b, Decimal.exponent_mul a b⟩,
    ⟨_, hadd, haddComm⟩, ⟨_, evaluates_add hadd hz, haddAssoc⟩, ⟨_, hmul, hmulComm⟩,
    ⟨_, evaluates_mul hmul hz, hmulAssoc⟩, hdistrib, hle, hge⟩

/-- With `-1`, `1.0` and `-1.0`, the law of distribution has `-0.0` on one side and `0.0` on the
other. -/
theorem decimals_exact_zeros :
    let start : Machine := ⟨∅, #[], #[]⟩
    let x : Expr := .literal (.decimal ⟨true, 1, 0⟩)
    let y : Expr := .literal (.decimal ⟨false, 10, -1⟩)
    let z : Expr := .literal (.decimal ⟨true, 10, -1⟩)
    Evaluates 0 (.expr (.binary "*" x (.binary "+" y z))) start
        (.ok (.decimal ⟨true, 0, -1⟩) start) ∧
      Evaluates 0 (.expr (.binary "+" (.binary "*" x y) (.binary "*" x z))) start
        (.ok (.decimal ⟨false, 0, -1⟩) start) ∧
      Holds 0 start (.binary "==" (.binary "*" x (.binary "+" y z))
        (.binary "+" (.binary "*" x y) (.binary "*" x z))) ∧
      SameDecimal 0 start (.binary "+" (.binary "+" x y) z) (.binary "+" x (.binary "+" y z)) := by
  intro start x y z
  have hx : Evaluates 0 (.expr x) start (.ok (.decimal ⟨true, 1, 0⟩) start) :=
    evaluates_literal 0 start (.decimal ⟨true, 1, 0⟩)
  have hy : Evaluates 0 (.expr y) start (.ok (.decimal ⟨false, 10, -1⟩) start) :=
    evaluates_literal 0 start (.decimal ⟨false, 10, -1⟩)
  have hz : Evaluates 0 (.expr z) start (.ok (.decimal ⟨true, 10, -1⟩) start) :=
    evaluates_literal 0 start (.decimal ⟨true, 10, -1⟩)
  obtain ⟨-, -, -, -, hassoc, -, -, hdistrib, -, -⟩ := decimals_exact hx hy hz
  exact ⟨evaluates_mul hx (evaluates_add hy hz),
    evaluates_add (evaluates_mul hx hy) (evaluates_mul hx hz), hdistrib, hassoc⟩

end Exact

end Evaluation

end ObjectLang
