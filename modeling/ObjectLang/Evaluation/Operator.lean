import ObjectLang.Decimal.Division
import ObjectLang.Evaluation.Basic
import ObjectLang.Values.Order

/-!
Operators on values. Numbers of one kind add, subtract, multiply and divide; a text on either side
of `+` joins the texts of both; any two values can be tested for equality; and the ordered kinds
compare.
-/

namespace ObjectLang

namespace Value

/-- Two numbers of one kind under an operation on either kind. -/
def numeric? (integers : Int → Int → Int) (decimals : Decimal → Decimal → Decimal) :
    Value → Value → Option Value
  | integer a, integer b => some (.integer (integers a b))
  | decimal a, decimal b => some (.decimal (decimals a b))
  | _, _ => none

end Value

namespace Evaluation

/-- An arithmetic operation, which needs two numbers of one kind. -/
def arithmetic (op : Operator) (integers : Int → Int → Int)
    (decimals : Decimal → Decimal → Decimal) (a b : Value) : EvalM Value :=
  match a.numeric? integers decimals b with
  | some v => return v
  | none => fail (.invalidOperands op a.kind b.kind)

/-- A sum, or the texts of both sides joined when one side is a text. -/
def plus (a b : Value) : EvalM Value :=
  match a, b with
  | .string s, b => return .string (s ++ (← display b))
  | a, .string t => return .string ((← display a) ++ t)
  | a, b => arithmetic .add (· + ·) (· + ·) a b

/-- A quotient: of integers cut off towards zero, of decimals rounded to the scale of the
dividend. -/
def divide (a b : Value) : EvalM Value :=
  match a, b with
  | .integer m, .integer n => if n = 0 then fail .divisionByZero else return .integer (m.tdiv n)
  | .decimal m, .decimal n => if n.isZero then fail .divisionByZero else return .decimal (m / n)
  | a, b => fail (.invalidOperands .div a.kind b.kind)

/-- A comparison, which needs two values of one ordered kind. -/
def ordering (op : Operator) (answer : Option Bool) (a b : Value) : EvalM Value :=
  match answer with
  | some answer => return .boolean answer
  | none => fail (.notComparable op a.kind b.kind)

/-- The second operand of AND or OR, which decides when the first one does not. -/
def logical (op : Operator) (right : EvalM Value) : EvalM Value :=
  return .boolean (← requireOperand op (← right))

/-- Applies an operator to its operands from left to right. AND and OR leave out the right one when
the left one decides. -/
def binary (op : Operator) (left right : EvalM Value) : EvalM Value := do
  match op with
  | .and => if ← requireOperand op (← left) then logical op right else return .boolean false
  | .or => if ← requireOperand op (← left) then return .boolean true else logical op right
  | .add => plus (← left) (← right)
  | .sub => arithmetic op (· - ·) (· - ·) (← left) (← right)
  | .mul => arithmetic op (· * ·) (· * ·) (← left) (← right)
  | .div => divide (← left) (← right)
  | .eq => return .boolean (← equal (← left) (← right))
  | .ne => return .boolean !(← equal (← left) (← right))
  | .lt => let a ← left; let b ← right; ordering op (a.less? b) a b
  | .le => let a ← left; let b ← right; ordering op (a.lessEq? b) a b
  | .gt => let a ← left; let b ← right; ordering op (b.less? a) a b
  | .ge => let a ← left; let b ← right; ordering op (b.lessEq? a) a b

end Evaluation

end ObjectLang
