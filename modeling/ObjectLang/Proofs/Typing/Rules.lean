import ObjectLang.Analysis.Basic
import ObjectLang.Typed.Tree

/-!
The typing rules of the language, as judgements on analysed programs. Object types are read in one
forest of scopes, and the names that a place in the program sees are found in an environment of
nested blocks.
-/

namespace ObjectLang.Typed

/-- The types of the names that are in scope, those of the innermost block first. -/
abbrev Env := List (List (String × Ty))

namespace Env

/-- The type at the nearest binding of a name. -/
def lookup (env : Env) (name : String) : Option Ty := env.findSome? (Bindings.findIn name)

/-- Binds names in the innermost block. -/
def extend (env : Env) (added : List (String × Ty)) : Env :=
  match env with
  | [] => [added]
  | own :: outer => (own ++ added) :: outer

theorem lookup_cons (own : List (String × Ty)) (env : Env) (name : String) :
    lookup (own :: env) name = (Bindings.findIn name own).or (env.lookup name) := by
  rw [lookup, List.findSome?_cons]
  cases Bindings.findIn name own <;> rfl

theorem lookup_singleton (own : List (String × Ty)) (name : String) :
    lookup [own] name = Bindings.findIn name own := by
  rw [lookup_cons]
  exact Option.or_none

end Env

/-- The name that a declaration binds, with its type. -/
def LetDecl.binding : LetDecl Ty → String × Ty
  | .mk name type _ => (name, type)

def DefDecl.binding : DefDecl Ty → String × Ty
  | .mk name params returns _ => (name, .fn (params.map Prod.snd) returns)

/-- The names that a statement binds in its block, with their types. -/
def Stmt.bindings : Stmt Ty → List (String × Ty)
  | .letStmt decl => [decl.binding]
  | .defStmt decl => [decl.binding]
  | _ => []

/-- All members of an object: its fields, its methods, and the object itself. -/
def members (fields : List (LetDecl Ty)) (methods : List (DefDecl Ty)) (self : Ty) :
    List (String × Ty) :=
  fields.map LetDecl.binding ++ methods.map DefDecl.binding ++ [(selfName, self)]

variable (Γ : TypeScopes)

/-- The types of operands that an operator takes, and the type of its result. -/
inductive OperatorTyped : Operator → Ty → Ty → Ty → Prop where
  | logical {op} : op ∈ [Operator.and, .or] →
      OperatorTyped op (.prim .boolean) (.prim .boolean) (.prim .boolean)
  | concatLeft {t} : OperatorTyped .add (.prim .string) t (.prim .string)
  | concatRight {t} : OperatorTyped .add t (.prim .string) (.prim .string)
  | arithmetic {op p} : op ∈ [Operator.add, .sub, .mul, .div] → p ∈ [Prim.integer, .decimal] →
      OperatorTyped op (.prim p) (.prim p) (.prim p)
  | equality {op t u} : op ∈ [Operator.eq, .ne] → t.isSubtype Γ (.prim .equatable) = true →
      u.isSubtype Γ (.prim .equatable) = true → OperatorTyped op t u (.prim .boolean)
  | ordering {op t u} : op ∈ [Operator.lt, .le, .gt, .ge] →
      t.isSubtype Γ (.prim .comparable) = true → u.isSubtype Γ (.prim .comparable) = true →
      t.equiv Γ u = true → OperatorTyped op t u (.prim .boolean)

mutual

/-- Every part of an expression has the type that the rules give it. -/
inductive ExprTyped : Env → Expr Ty → Prop where
  | literal {env value p} : Analysis.literalType value = .ok p →
      ExprTyped env (.literal value (.prim p))
  | group {env inner} : ExprTyped env inner → ExprTyped env (.group inner inner.type)
  | binary {env op left right type} : ExprTyped env left → ExprTyped env right →
      OperatorTyped Γ op left.type right.type type → ExprTyped env (.binary op left right type)
  | var {env name type} : env.lookup name = some type → ExprTyped env (.var name type)
  | property {env receiver name type owner} : ExprTyped env receiver →
      receiver.type = .object owner → Γ.lookupOwn owner name = some type →
      ExprTyped env (.property receiver name type)
  | call {env name args params returns} : env.lookup name = some (.fn params returns) →
      ArgsTyped env args params → ExprTyped env (.call name args returns)
  | methodCall {env receiver name args owner params returns} : ExprTyped env receiver →
      receiver.type = .object owner → Γ.lookupOwn owner name = some (.fn params returns) →
      ArgsTyped env args params → ExprTyped env (.methodCall receiver name args returns)
  | object {env name fields methods owner} : FieldsTyped [[]] fields →
      (Γ.own owner).entries = members fields methods (.object owner) →
      MethodsTyped [members fields methods (.object owner)] methods →
      ExprTyped env (.object name fields methods (.object owner))

/-- There are as many arguments as parameters, each of a subtype of the parameter's type. -/
inductive ArgsTyped : Env → List (Expr Ty) → List Ty → Prop where
  | nil {env} : ArgsTyped env [] []
  | cons {env e es param params} : ExprTyped env e → e.type.isSubtype Γ param = true →
      ArgsTyped env es params → ArgsTyped env (e :: es) (param :: params)

/-- The value of a variable has a subtype of its type. -/
inductive LetTyped : Env → LetDecl Ty → Prop where
  | unset {env name type} : LetTyped env (.mk name type none)
  | set {env name type value} : ExprTyped env value → value.type.isSubtype Γ type = true →
      LetTyped env (.mk name type (some value))

/-- The value of a field sees the fields before it. -/
inductive FieldsTyped : Env → List (LetDecl Ty) → Prop where
  | nil {env} : FieldsTyped env []
  | cons {env d ds} : LetTyped env d → FieldsTyped (env.extend [d.binding]) ds →
      FieldsTyped env (d :: ds)

/-- The body of a function sees its parameters, and returns what the function declares. -/
inductive DefTyped : Env → DefDecl Ty → Prop where
  | mk {env name params returns body} : BlockTyped (params :: env) (some returns) body →
      DefTyped env (.mk name params returns body)

inductive MethodsTyped : Env → List (DefDecl Ty) → Prop where
  | nil {env} : MethodsTyped env []
  | cons {env d ds} : DefTyped env d → MethodsTyped env ds → MethodsTyped env (d :: ds)

/-- A statement obeys the rules, inside a function with the given result type or outside of all. -/
inductive StmtTyped : Env → Option Ty → Stmt Ty → Prop where
  | letStmt {env returns decl} : LetTyped env decl → StmtTyped env returns (.letStmt decl)
  | defStmt {env returns decl} : DefTyped (env.extend [decl.binding]) decl →
      StmtTyped env returns (.defStmt decl)
  | ifStmt {env returns condition thenBody elseBody} : ExprTyped env condition →
      condition.type = .prim .boolean → BlockTyped ([] :: env) returns thenBody →
      BlockTyped ([] :: env) returns elseBody →
      StmtTyped env returns (.ifStmt condition thenBody elseBody)
  | forStmt {env returns name iterable body} : ExprTyped env iterable →
      iterable.type.isSubtype Γ (.prim .iterable) = true →
      BlockTyped ([(name, .prim .integer)] :: env) returns body →
      StmtTyped env returns (.forStmt name (.prim .integer) iterable body)
  | returnNil {env returns} : (Ty.prim .nil).isSubtype Γ returns = true →
      StmtTyped env (some returns) (.returnStmt none)
  | returnValue {env returns value} : ExprTyped env value →
      value.type.isSubtype Γ returns = true →
      StmtTyped env (some returns) (.returnStmt (some value))
  | exprStmt {env returns e} : ExprTyped env e → StmtTyped env returns (.exprStmt e)
  | assignVar {env returns name type value} : env.lookup name = some type →
      ExprTyped env value → value.type.isSubtype Γ type = true →
      StmtTyped env returns (.assignVar name type value)
  | assignProperty {env returns receiver name type value owner} : ExprTyped env receiver →
      receiver.type = .object owner → Γ.lookupOwn owner name = some type →
      (∀ params result, type ≠ .fn params result) → ExprTyped env value →
      value.type.isSubtype Γ type = true →
      StmtTyped env returns (.assignProperty receiver name type value)

/-- Every statement of a block sees what those before it have declared. -/
inductive BlockTyped : Env → Option Ty → List (Stmt Ty) → Prop where
  | nil {env returns} : BlockTyped env returns []
  | cons {env returns st sts} : StmtTyped env returns st →
      BlockTyped (env.extend st.bindings) returns sts → BlockTyped env returns (st :: sts)

end

/-- A program obeys the rules, where no `RETURN` may stand outside of all functions. -/
def ProgramTyped (env : Env) : Program Ty → Prop
  | .source stmts => BlockTyped Γ env none stmts
  | .stmt st => StmtTyped Γ env none st
  | .expr e => ExprTyped Γ env e

end ObjectLang.Typed
