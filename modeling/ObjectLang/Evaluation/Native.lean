import ObjectLang.Evaluation.Basic
import ObjectLang.Values.Inspect

/-! What the native functions do. A native method gets the object that it is called on first. -/

namespace ObjectLang

namespace Native

/-- A native function of one argument. -/
def unary (f : Native) (run : Value → EvalM Value) : List Value → EvalM Value
  | [v] => run v
  | args => Evaluation.fail (.arityMismatch f.name 1 args.length)

/-- A native function of two arguments. -/
def binary (f : Native) (run : Value → Value → EvalM Value) : List Value → EvalM Value
  | [v, w] => run v w
  | args => Evaluation.fail (.arityMismatch f.name 2 args.length)

/-- A bound of a range, which must be an integer. -/
def rangeBound : Value → EvalM Int
  | .integer n => return n
  | v => Evaluation.fail (.rangeBound v.kind)

/-- The integers from the first bound up to the second, which is left out. -/
def integersBetween (first last : Int) : List Value :=
  (List.range (last - first).toNat).map fun (k : Nat) => .integer (first + k)

/-- Runs a native function on its arguments. -/
def call (f : Native) (args : List Value) : EvalM Value :=
  match f with
  | debug => f.unary (fun v => do
      Evaluation.writeLine (v.inspect (← get).scopes)
      return .nil) args
  | print => f.unary (fun v => do
      Evaluation.writeLine (← Evaluation.display v)
      return .nil) args
  | log => f.unary (fun v => do
      Evaluation.writeLine ("log: " ++ (← Evaluation.display v))
      return v) args
  | list | function => return .list args
  | range => f.binary (fun v w => do
      let first ← rangeBound v
      let last ← rangeBound w
      return .list (integersBetween first last)) args
  | functionAny | functionString => f.unary (fun v => return v) args
  | method => return .list args.tail
  | methodAny | methodString => f.binary (fun _ v => return v) args

end Native

end ObjectLang
