import ObjectLang.Proofs.Erasure.Trees
import ObjectLang.Proofs.Resolution.Kinds

/-!
The parts of an analysed program, and what has to be said of them for values to be of the kinds that
types promise. A variable without a first value is nil, and so is the result of a function that comes
to its end without a RETURN; and two values of the tier of comparable values need not be of one kind.
-/

namespace ObjectLang

mutual

/-- A statement does not come to its end without a RETURN. -/
def Stmt.Returns : Stmt → Prop
  | .returnStmt _ => True
  | .ifStmt _ thenBody elseBody => BlockReturns thenBody ∧ BlockReturns elseBody
  | _ => False

def BlockReturns : List Stmt → Prop
  | [] => False
  | st :: sts => st.Returns ∨ BlockReturns sts

end

mutual

theorem Stmt.returns_bare (st : Stmt) : st.bare.Returns ↔ st.Returns := by
  cases st with
  | ifStmt condition thenBody elseBody =>
    exact and_congr (blockReturns_bare thenBody) (blockReturns_bare elseBody)
  | _ => exact Iff.rfl

theorem blockReturns_bare (sts : List Stmt) : BlockReturns (bareBlock sts) ↔ BlockReturns sts := by
  match sts with
  | [] => exact Iff.rfl
  | st :: sts => exact or_congr st.returns_bare (blockReturns_bare sts)

end

namespace Typed

/-- A part of an analysed program, or a list of parts. -/
inductive Node where
  | expr (e : Expr Ty)
  | args (es : List (Expr Ty))
  | letDecl (d : LetDecl Ty)
  | fields (ds : List (LetDecl Ty))
  | defDecl (d : DefDecl Ty)
  | stmt (st : Stmt Ty)
  | block (sts : List (Stmt Ty))

/-- Nothing in this part itself brings a value to a place that its type leaves out. -/
def Node.Clear : Node → Prop
  | .expr (.binary op left _ _) => op.Orders → left.type ≠ .prim .comparable
  | .expr _ => True
  | .letDecl (.mk _ type value) => value = none → type.Includes .nil
  | .defDecl (.mk _ _ returns body) => returns.Includes .nil ∨ BlockReturns (eraseBlock body)
  | .args _ | .fields _ | .stmt _ | .block _ => True

mutual

/-- An expression and its parts. -/
def Expr.nodes : Expr Ty → List Node
  | .literal value type => [.expr (.literal value type)]
  | .group inner type => .expr (.group inner type) :: inner.nodes
  | .binary op left right type => .expr (.binary op left right type) :: (left.nodes ++ right.nodes)
  | .var name type => [.expr (.var name type)]
  | .property receiver name type => .expr (.property receiver name type) :: receiver.nodes
  | .call name args type => .expr (.call name args type) :: argsNodes args
  | .methodCall receiver name args type =>
    .expr (.methodCall receiver name args type) :: (receiver.nodes ++ argsNodes args)
  | .object name fields methods type =>
    .expr (.object name fields methods type) :: (fieldsNodes fields ++ methodsNodes methods)

def argsNodes : List (Expr Ty) → List Node
  | [] => []
  | e :: es => e.nodes ++ argsNodes es

def optionNodes : Option (Expr Ty) → List Node
  | none => []
  | some e => e.nodes

def LetDecl.nodes : LetDecl Ty → List Node
  | .mk name type value => .letDecl (.mk name type value) :: optionNodes value

def fieldsNodes : List (LetDecl Ty) → List Node
  | [] => []
  | d :: ds => d.nodes ++ fieldsNodes ds

def DefDecl.nodes : DefDecl Ty → List Node
  | .mk name params returns body => .defDecl (.mk name params returns body) :: blockNodes body

def methodsNodes : List (DefDecl Ty) → List Node
  | [] => []
  | d :: ds => d.nodes ++ methodsNodes ds

def Stmt.nodes : Stmt Ty → List Node
  | .letStmt decl => decl.nodes
  | .defStmt decl => decl.nodes
  | .ifStmt condition thenBody elseBody =>
    condition.nodes ++ (blockNodes thenBody ++ blockNodes elseBody)
  | .forStmt _ _ iterable body => iterable.nodes ++ blockNodes body
  | .returnStmt value => optionNodes value
  | .exprStmt e => e.nodes
  | .assignVar _ _ value => value.nodes
  | .assignProperty receiver _ _ value => receiver.nodes ++ value.nodes

def blockNodes : List (Stmt Ty) → List Node
  | [] => []
  | st :: sts => st.nodes ++ blockNodes sts

end

/-- All parts of an analysed program. -/
def Program.nodes : Program Ty → List Node
  | .source stmts => blockNodes stmts
  | .stmt st => st.nodes
  | .expr e => e.nodes

end Typed

end ObjectLang
