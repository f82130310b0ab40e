import ObjectLang.Decimal.Basic

/-!
Syntax trees of programs, without types. A parser may put a node where its kind does not belong;
such a node is kept as `misplaced`, by its kind alone, and is an error only when a pass reaches
it.
-/

namespace ObjectLang

/-- What a literal holds. A function from outside the program goes by its name. -/
inductive Literal where
  | nil
  | boolean (value : Bool)
  | integer (value : Int)
  | decimal (value : Decimal)
  | string (value : String)
  | character (value : Char)
  | function (name : String)
  | list (items : List Literal)
  deriving Repr

/-- The kinds of nodes that a program can be made of. -/
inductive NodeKind where
  | source
  | letStmt
  | defStmt
  | ifStmt
  | forStmt
  | returnStmt
  | exprStmt
  | assignStmt
  | literal
  | group
  | binary
  | var
  | property
  | call
  | methodCall
  | object
  deriving DecidableEq, Repr

/-- The name of a kind of nodes in messages. -/
def NodeKind.label : NodeKind → String
  | source => "PSource"
  | letStmt => "PLetStmt"
  | defStmt => "PDefStmt"
  | ifStmt => "PIfStmt"
  | forStmt => "PForStmt"
  | returnStmt => "PReturnStmt"
  | exprStmt => "PExprStmt"
  | assignStmt => "PAssignStmt"
  | literal => "PLiteral"
  | group => "PGroup"
  | binary => "PBinary"
  | var => "PVar"
  | property => "PProperty"
  | call => "PCall"
  | methodCall => "PMethodCall"
  | object => "PObjectExpr"

mutual

/-- An expression. The operator of a binary one is the symbol that stands between the operands,
known or not. -/
inductive Expr where
  | literal (value : Literal)
  | group (inner : Expr)
  | binary (symbol : String) (left right : Expr)
  | var (name : String)
  | property (receiver : Expr) (name : String)
  | call (name : String) (args : List Expr)
  | methodCall (receiver : Expr) (name : String) (args : List Expr)
  | object (name : Option String) (fields : List LetDecl) (methods : List DefDecl)
  | misplaced (kind : NodeKind)

/-- A statement. Only variables and properties can be assigned to, but any expression may stand
there. -/
inductive Stmt where
  | letStmt (decl : LetDecl)
  | defStmt (decl : DefDecl)
  | ifStmt (condition : Expr) (thenBody elseBody : List Stmt)
  | forStmt (name : String) (iterable : Expr) (body : List Stmt)
  | returnStmt (value : Option Expr)
  | exprStmt (expr : Expr)
  | assignStmt (target value : Expr)
  | misplaced (kind : NodeKind)

/-- A variable or field with its annotation and its first value. -/
inductive LetDecl where
  | mk (name : String) (typeName : Option String) (value : Option Expr)

/-- A function or method. The annotations stand for the first parameters; there may be too few of
them, or too many, and a parameter may be skipped. -/
inductive DefDecl where
  | mk (name : String) (params : List String) (paramTypes : List (Option String))
      (returnType : Option String) (body : List Stmt)

end

/-- What a pass is run on: a whole source, one statement or one expression. -/
inductive Program where
  | source (stmts : List Stmt)
  | stmt (stmt : Stmt)
  | expr (expr : Expr)

/-- The kind of an expression, or of what stands in its place. -/
def Expr.kind : Expr → NodeKind
  | .literal .. => .literal
  | .group .. => .group
  | .binary .. => .binary
  | .var .. => .var
  | .property .. => .property
  | .call .. => .call
  | .methodCall .. => .methodCall
  | .object .. => .object
  | .misplaced kind => kind

def LetDecl.name : LetDecl → String
  | .mk name _ _ => name

namespace DefDecl

def name : DefDecl → String
  | mk name _ _ _ _ => name

def params : DefDecl → List String
  | mk _ params _ _ _ => params

end DefDecl

/-- The names that a statement binds in the scope that it stands in. -/
def Stmt.declared : Stmt → List String
  | .letStmt decl => [decl.name]
  | .defStmt decl => [decl.name]
  | _ => []

/-- The name by which an object refers to itself inside its methods. -/
def selfName : String := "this"

end ObjectLang
