import ObjectLang.Decimal.Basic

/-! Division of decimals to the scale of the dividend, a half going to the even neighbour. -/

namespace ObjectLang

/-- The integer nearest to a fraction of naturals, and the even one of two that are equally near. -/
def roundHalfEven (numerator denominator : Nat) : Nat :=
  let quotient := numerator / denominator
  let twice := 2 * (numerator % denominator)
  if twice < denominator then quotient
  else if denominator < twice then quotient + 1
  else if quotient % 2 = 0 then quotient
  else quotient + 1

/-- The quotient rounded to the exponent of `a`. A zero quotient is never negative. -/
def Decimal.div (a b : Decimal) : Decimal :=
  let units := roundHalfEven (appendZeros a.coefficient (-b.exponent).toNat)
    (appendZeros b.coefficient b.exponent.toNat)
  ⟨units != 0 && (a.negative != b.negative), units, a.exponent⟩

instance : Div Decimal := ⟨Decimal.div⟩

end ObjectLang
