import ObjectLang.Tree.Defect
import ObjectLang.Tree.Operator
import ObjectLang.Values.Basic

/-! Why a running program stops. -/

namespace ObjectLang

/-- The errors of a program while it runs. -/
inductive EvalError where
  | undefinedName (name : String)
  | undefinedFunction (name : String)
  | undefinedMember (name : String)
  | conditionNotBoolean (kind : ValueKind)
  | operandNotBoolean (op : Operator) (kind : ValueKind)
  | receiverNotObject (kind : ValueKind)
  | notFunction (name : String) (kind : ValueKind)
  | notList (kind : ValueKind)
  | rangeBound (kind : ValueKind)
  | invalidOperands (op : Operator) (left right : ValueKind)
  | notComparable (op : Operator) (left right : ValueKind)
  | invalidTarget (kind : NodeKind)
  | arityMismatch (name : String) (expected : Nat) (given : Int)
  | alreadyDefined (name : String)
  | duplicateParameter (param function : String)
  | divisionByZero
  | unhandledReturn
  | defect (d : Defect)
  | scope (e : ScopeError)
  deriving DecidableEq, Repr

/-- The kinds that the errors fall into. -/
inductive EvalErrorKind where
  | undefinedName
  | undefinedMember
  | typeError
  | arityMismatch
  | duplicateName
  | divideByZero
  | unhandledReturn
  | defect
  | scope
  deriving DecidableEq, Repr

namespace EvalError

def kind : EvalError → EvalErrorKind
  | undefinedName _ | undefinedFunction _ => .undefinedName
  | undefinedMember _ => .undefinedMember
  | conditionNotBoolean _ | operandNotBoolean .. | receiverNotObject _ | notFunction ..
  | notList _ | rangeBound _ | invalidOperands .. | notComparable .. | invalidTarget _ => .typeError
  | arityMismatch .. => .arityMismatch
  | alreadyDefined _ | duplicateParameter .. => .duplicateName
  | divisionByZero => .divideByZero
  | unhandledReturn => .unhandledReturn
  | defect _ => .defect
  | scope _ => .scope

/-- The text shown to users. -/
def message : EvalError → String
  | undefinedName name => "'" ++ name ++ "' is not defined"
  | undefinedFunction name => "function '" ++ name ++ "' is not defined"
  | undefinedMember name => "'" ++ name ++ "' is not a member of the object"
  | conditionNotBoolean kind => "IF condition expects a Boolean, got " ++ kind.name
  | operandNotBoolean op kind => op.symbol ++ " expects a Boolean, got " ++ kind.name
  | receiverNotObject kind => "expected an object receiver, got " ++ kind.name
  | notFunction name kind => "'" ++ name ++ "' is not a function, got " ++ kind.name
  | notList kind => "FOR expects a list, got " ++ kind.name
  | rangeBound kind => "'range' expects Integer arguments, got " ++ kind.name
  | invalidOperands op left right =>
    "invalid operands " ++ left.name ++ " and " ++ right.name ++ " for '" ++ op.symbol ++ "'"
  | notComparable op left right =>
    "cannot compare " ++ left.name ++ " and " ++ right.name ++ " with '" ++ op.symbol ++ "'"
  | invalidTarget kind => "cannot assign to " ++ kind.label
  | arityMismatch name expected given =>
    "'" ++ name ++ "' expects " ++ toString expected ++ " argument(s) but got " ++ toString given
  | alreadyDefined name => "'" ++ name ++ "' is already defined in this scope"
  | duplicateParameter param function =>
    "duplicate parameter '" ++ param ++ "' in '" ++ function ++ "'"
  | divisionByZero => "division by zero"
  | unhandledReturn => "RETURN outside of a function"
  | defect d => d.message
  | scope e => e.message

end EvalError

/-- How evaluation can end without a value. Nesting that goes too deep says nothing about the
program but that more depth is needed; a value that holds itself can never be shown or compared to
its end. -/
inductive Fault where
  | error (e : EvalError)
  | tooDeep
  | endless
  deriving DecidableEq, Repr

end ObjectLang
