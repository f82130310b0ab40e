import ObjectLang.Decimal.Order
import ObjectLang.Values.Basic

/-!
The order of values. Truth values, integers, decimals, texts and characters are ordered, each kind
for itself: false before true, texts by their code points from left to right.
-/

namespace ObjectLang.Value

/-- `a < b`, for two values of one ordered kind. -/
def less? : Value → Value → Option Bool
  | boolean a, boolean b => some (!a && b)
  | integer a, integer b => some (a < b)
  | decimal a, decimal b => some (a.lt b)
  | string a, string b => some (a < b)
  | character a, character b => some (a < b)
  | _, _ => none

/-- `a ≤ b`, for two values of one ordered kind. -/
def lessEq? : Value → Value → Option Bool
  | boolean a, boolean b => some (!a || b)
  | integer a, integer b => some (a ≤ b)
  | decimal a, decimal b => some (a.le b)
  | string a, string b => some (a ≤ b)
  | character a, character b => some (a ≤ b)
  | _, _ => none

end ObjectLang.Value
