import ObjectLang.Tree.Defect
import ObjectLang.Tree.Operator
import ObjectLang.Types.Display

/-! Why a program is rejected. -/

namespace ObjectLang

/-- The reasons for which analysis stops. Types are kept as they are, since what they are called
depends on the members that they have in the end. -/
inductive AnalysisError where
  | unknownType (name : String)
  | notSubtype (actual expected : Ty)
  | conditionNotBoolean (actual : Ty)
  | receiverNotObject (actual : Ty)
  | notFunction (name : String) (actual : Ty)
  | operandMismatch (op : Operator) (left right : Ty)
  | alreadyDefined (name : String)
  | duplicateParameter (param function : String)
  | memberAlreadyDefined (name : String)
  | reservedObjectName (name : String)
  | reservedSelf
  | undefinedName (name : String)
  | undefinedFunction (name : String)
  | undefinedMember (name : String) (object : Ty)
  | arityMismatch (name : String) (expected given : Nat)
  | assignedMethod (name : String)
  | invalidTarget (kind : NodeKind)
  | returnOutside
  | defect (d : Defect)
  | scope (e : ScopeError)
  deriving Repr

/-- The kinds that the reasons fall into. -/
inductive AnalysisErrorKind where
  | unknownType
  | typeMismatch
  | duplicateName
  | undefinedName
  | undefinedMember
  | arityMismatch
  | invalidAssignmentTarget
  | illegalReturn
  | defect
  | scope
  deriving DecidableEq, Repr

namespace AnalysisError

def kind : AnalysisError → AnalysisErrorKind
  | unknownType _ => .unknownType
  | notSubtype .. | conditionNotBoolean _ | receiverNotObject _ | notFunction ..
  | operandMismatch .. => .typeMismatch
  | alreadyDefined _ | duplicateParameter .. | memberAlreadyDefined _ | reservedObjectName _
  | reservedSelf => .duplicateName
  | undefinedName _ | undefinedFunction _ => .undefinedName
  | undefinedMember .. => .undefinedMember
  | arityMismatch .. => .arityMismatch
  | assignedMethod _ | invalidTarget _ => .invalidAssignmentTarget
  | returnOutside => .illegalReturn
  | defect _ => .defect
  | scope _ => .scope

/-- The type that was found where another one was asked for. -/
def actual? : AnalysisError → Option Ty
  | notSubtype actual _ | conditionNotBoolean actual | receiverNotObject actual
  | notFunction _ actual => some actual
  | operandMismatch _ _ right => some right
  | _ => none

/-- The type that was asked for, if it was a single one. -/
def expected? : AnalysisError → Option Ty
  | notSubtype _ expected => some expected
  | conditionNotBoolean _ => some (.prim .boolean)
  | operandMismatch _ left _ => some left
  | _ => none

/-- The text shown to users, with the members that object types have now. -/
def message (Γ : TypeScopes) : AnalysisError → String
  | unknownType name => "unknown type '" ++ name ++ "'"
  | notSubtype actual expected =>
    "expected '" ++ actual.display Γ ++ "' to be a subtype of '" ++ expected.display Γ ++ "'"
  | conditionNotBoolean actual =>
    "IF condition must be Boolean, got '" ++ actual.display Γ ++ "'"
  | receiverNotObject actual => "expected an Object receiver, got '" ++ actual.display Γ ++ "'"
  | notFunction name actual =>
    "'" ++ name ++ "' is not a function, it has type '" ++ actual.display Γ ++ "'"
  | operandMismatch op left right =>
    "invalid operand types '" ++ left.display Γ ++ "' and '" ++ right.display Γ ++ "' for '"
      ++ op.symbol ++ "'"
  | alreadyDefined name => "'" ++ name ++ "' is already defined in this scope"
  | duplicateParameter param function =>
    "duplicate parameter '" ++ param ++ "' in '" ++ function ++ "'"
  | memberAlreadyDefined name => "'" ++ name ++ "' is already defined on the object"
  | reservedObjectName name => "object name '" ++ name ++ "' is a reserved type name"
  | reservedSelf => "'" ++ selfName ++ "' is reserved inside object bodies"
  | undefinedName name => "'" ++ name ++ "' is not defined"
  | undefinedFunction name => "function '" ++ name ++ "' is not defined"
  | undefinedMember name object => "'" ++ name ++ "' is not a member of " ++ object.display Γ
  | arityMismatch name expected given =>
    "'" ++ name ++ "' expects " ++ toString expected ++ " argument(s) but got " ++ toString given
  | assignedMethod name => "cannot assign to method '" ++ name ++ "'"
  | invalidTarget kind => "assignment target must be a variable or property, got " ++ kind.label
  | returnOutside => "RETURN outside of a function body"
  | defect d => d.message
  | scope e => e.message

end AnalysisError

end ObjectLang
