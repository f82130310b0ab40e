import ObjectLang.Tree.Basic
import ObjectLang.Tree.Operator

/-!
The scoping rules of the language: which names a place in a program sees, which are still free to be
declared there, and where a `RETURN` may stand. They say nothing about types.
-/

namespace ObjectLang

/-- The names that a program binds in the scope that it runs in. -/
def Program.declared : Program → List String
  | .source stmts => stmts.flatMap Stmt.declared
  | .stmt st => st.declared
  | .expr _ => []

mutual

/-- Every name that an expression uses is visible. -/
def ExprScoped (visible : List String) : Expr → Prop
  | .literal _ => True
  | .group inner => ExprScoped visible inner
  | .binary symbol left right =>
    (∃ op, Operator.ofSymbol? symbol = some op) ∧ ExprScoped visible left ∧ ExprScoped visible right
  | .var name => name ∈ visible
  | .property receiver _ => ExprScoped visible receiver
  | .call name args => name ∈ visible ∧ ArgsScoped visible args
  | .methodCall receiver _ args => ExprScoped visible receiver ∧ ArgsScoped visible args
  | .object _ fields methods =>
    let names := fields.map LetDecl.name ++ methods.map DefDecl.name
    names.Nodup ∧ FieldsScoped [] fields ∧ MethodsScoped (names ++ [selfName]) methods
  | .misplaced _ => False

def ArgsScoped (visible : List String) : List Expr → Prop
  | [] => True
  | e :: es => ExprScoped visible e ∧ ArgsScoped visible es

def OptionScoped (visible : List String) : Option Expr → Prop
  | none => True
  | some e => ExprScoped visible e

/-- A variable is new in its own block; its value does not see it. -/
def LetScoped (outer own : List String) : LetDecl → Prop
  | .mk name _ value => name ∉ own ∧ OptionScoped (own ++ outer) value

/-- The fields of an object see the fields before them, and nothing else. -/
def FieldsScoped (own : List String) : List LetDecl → Prop
  | [] => True
  | d :: ds => LetScoped [] own d ∧ FieldsScoped (own ++ [d.name]) ds

/-- The body of a function sees its parameters, which have different names. -/
def DefScoped (outer : List String) : DefDecl → Prop
  | .mk _ params _ _ body => params.Nodup ∧ BlockScoped outer params true body

def MethodsScoped (outer : List String) : List DefDecl → Prop
  | [] => True
  | d :: ds => DefScoped outer d ∧ MethodsScoped outer ds

/-- A statement obeys the rules in a block with the names `own`, inside a function or not. -/
def StmtScoped (outer own : List String) (inFunction : Bool) : Stmt → Prop
  | .letStmt decl => LetScoped outer own decl
  | .defStmt decl => decl.name ∉ own ∧ DefScoped (own ++ [decl.name] ++ outer) decl
  | .ifStmt condition thenBody elseBody =>
    ExprScoped (own ++ outer) condition ∧ BlockScoped (own ++ outer) [] inFunction thenBody ∧
      BlockScoped (own ++ outer) [] inFunction elseBody
  | .forStmt name iterable body =>
    ExprScoped (own ++ outer) iterable ∧ BlockScoped (own ++ outer) [name] inFunction body
  | .returnStmt value => inFunction = true ∧ OptionScoped (own ++ outer) value
  | .exprStmt e => ExprScoped (own ++ outer) e
  | .assignStmt (.var name) value => name ∈ own ++ outer ∧ ExprScoped (own ++ outer) value
  | .assignStmt (.property receiver _) value =>
    ExprScoped (own ++ outer) receiver ∧ ExprScoped (own ++ outer) value
  | .assignStmt _ _ => False
  | .misplaced _ => False

/-- Every statement of a block sees what those before it have declared. -/
def BlockScoped (outer own : List String) (inFunction : Bool) : List Stmt → Prop
  | [] => True
  | st :: sts =>
    StmtScoped outer own inFunction st ∧ BlockScoped outer (own ++ st.declared) inFunction sts

end

/-- A program obeys the rules, where no `RETURN` may stand outside of all functions. -/
def ProgramScoped (outer own : List String) : Program → Prop
  | .source stmts => BlockScoped outer own false stmts
  | .stmt st => StmtScoped outer own false st
  | .expr e => ExprScoped (own ++ outer) e

end ObjectLang
