/-!
Decimal numbers of unlimited size that remember their scale: `1.50` and `1.5` are equal in value and
still two numbers. Sums, differences and products are exact.
-/

namespace ObjectLang

/-- The number `± coefficient * 10 ^ exponent`. A zero has a sign and an exponent too. -/
structure Decimal where
  negative : Bool
  coefficient : Nat
  exponent : Int
  deriving DecidableEq, Repr

/-- The number written as a one and `n` zeros. -/
def powerOfTen (n : Nat) : Nat := Nat.pow 10 n

theorem powerOfTen_pos (n : Nat) : 0 < powerOfTen n := Nat.pow_pos (by decide)

/-- A number followed by zeros. Nothing is appended to zero, however many zeros are asked for. -/
def appendZeros (n zeros : Nat) : Nat := if n = 0 then 0 else n * powerOfTen zeros

theorem appendZeros_eq (n zeros : Nat) : appendZeros n zeros = n * powerOfTen zeros := by
  unfold appendZeros
  split <;> simp_all

/-- The number with the given sign. -/
def withSign (negative : Bool) (n : Nat) : Int := if negative then -n else n

theorem withSign_mul (negative : Bool) (m n : Nat) :
    withSign negative (m * n) = withSign negative m * n := by
  unfold withSign
  split
  · rw [Int.natCast_mul, Int.neg_mul]
  · rw [Int.natCast_mul]

namespace Decimal

/-- The coefficient with the sign. Both zeros give zero. -/
def signed (d : Decimal) : Int := withSign d.negative d.coefficient

/-- How many units `10 ^ e` the number has, for an `e` that is at most its exponent. -/
def unitsAt (d : Decimal) (e : Int) : Int :=
  withSign d.negative (appendZeros d.coefficient (d.exponent - e).toNat)

theorem unitsAt_eq (d : Decimal) (e : Int) :
    d.unitsAt e = d.signed * powerOfTen (d.exponent - e).toNat := by
  rw [unitsAt, appendZeros_eq, withSign_mul, signed]

/-- The scale at which two numbers can both be counted in whole units. -/
def commonExponent (a b : Decimal) : Int := min a.exponent b.exponent

/-- A number of units `10 ^ e`. The sign of zero is chosen separately. -/
def ofUnits (zeroNegative : Bool) (units : Int) (e : Int) : Decimal :=
  ⟨if units = 0 then zeroNegative else units < 0, units.natAbs, e⟩

def neg (d : Decimal) : Decimal := { d with negative := !d.negative }

/-- The exact sum at the finer of the two scales. A zero sum is negative only if both terms are. -/
def add (a b : Decimal) : Decimal :=
  let e := commonExponent a b
  ofUnits (a.negative && b.negative) (a.unitsAt e + b.unitsAt e) e

/-- The exact difference, with the sign rules of `a + -b`. -/
def sub (a b : Decimal) : Decimal := a.add b.neg

/-- The exact product. Its sign is negative if exactly one factor's is, also when it is zero. -/
def mul (a b : Decimal) : Decimal :=
  ⟨a.negative != b.negative, a.coefficient * b.coefficient, a.exponent + b.exponent⟩

instance : Neg Decimal := ⟨neg⟩

instance : Add Decimal := ⟨add⟩

instance : Sub Decimal := ⟨sub⟩

instance : Mul Decimal := ⟨mul⟩

def isZero (d : Decimal) : Bool := d.coefficient = 0

end Decimal

end ObjectLang
