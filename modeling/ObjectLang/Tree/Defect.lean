import ObjectLang.Tree.Basic

/-! What can be wrong with a tree itself, as opposed to the program that it stands for. -/

namespace ObjectLang

/-- Why a tree cannot be processed. -/
inductive Defect where
  | unhandledStatement (kind : NodeKind)
  | unhandledExpression (kind : NodeKind)
  | unknownOperator (symbol : String)
  | unexpectedLiteral (label : String)
  deriving DecidableEq, Repr

def Defect.message : Defect → String
  | unhandledStatement kind => "unhandled statement node: " ++ kind.label
  | unhandledExpression kind => "unhandled expression node: " ++ kind.label
  | unknownOperator symbol => "unknown operator '" ++ symbol ++ "'"
  | unexpectedLiteral label => "unexpected literal payload: " ++ label

end ObjectLang
