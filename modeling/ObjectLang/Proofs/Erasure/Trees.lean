import ObjectLang.Typed.Tree
import ObjectLang.Types.Basic

/-!
What a program is without its annotations, what is left of an analysed program when its types are
forgotten, and which types the annotations of a program ask for.
-/

namespace ObjectLang

mutual

/-- An expression without the annotations inside it. -/
def Expr.bare : Expr → Expr
  | .literal value => .literal value
  | .group inner => .group inner.bare
  | .binary symbol left right => .binary symbol left.bare right.bare
  | .var name => .var name
  | .property receiver name => .property receiver.bare name
  | .call name args => .call name (bareArgs args)
  | .methodCall receiver name args => .methodCall receiver.bare name (bareArgs args)
  | .object name fields methods => .object name (bareFields fields) (bareMethods methods)
  | .misplaced kind => .misplaced kind

def bareArgs : List Expr → List Expr
  | [] => []
  | e :: es => e.bare :: bareArgs es

def bareOption : Option Expr → Option Expr
  | none => none
  | some e => some e.bare

def LetDecl.bare : LetDecl → LetDecl
  | .mk name _ value => .mk name none (bareOption value)

def bareFields : List LetDecl → List LetDecl
  | [] => []
  | d :: ds => d.bare :: bareFields ds

def DefDecl.bare : DefDecl → DefDecl
  | .mk name params _ _ body => .mk name params [] none (bareBlock body)

def bareMethods : List DefDecl → List DefDecl
  | [] => []
  | d :: ds => d.bare :: bareMethods ds

/-- A statement without the annotations inside it. -/
def Stmt.bare : Stmt → Stmt
  | .letStmt decl => .letStmt decl.bare
  | .defStmt decl => .defStmt decl.bare
  | .ifStmt condition thenBody elseBody =>
    .ifStmt condition.bare (bareBlock thenBody) (bareBlock elseBody)
  | .forStmt name iterable body => .forStmt name iterable.bare (bareBlock body)
  | .returnStmt value => .returnStmt (bareOption value)
  | .exprStmt e => .exprStmt e.bare
  | .assignStmt target value => .assignStmt target.bare value.bare
  | .misplaced kind => .misplaced kind

def bareBlock : List Stmt → List Stmt
  | [] => []
  | st :: sts => st.bare :: bareBlock sts

end

/-- A program without annotations. -/
def Program.bare : Program → Program
  | .source stmts => .source (bareBlock stmts)
  | .stmt st => .stmt st.bare
  | .expr e => .expr e.bare

namespace Typed

variable {τ : Type}

mutual

/-- The expression that an analysed one stands for. -/
def Expr.erase : Expr τ → ObjectLang.Expr
  | .literal value _ => .literal value
  | .group inner _ => .group inner.erase
  | .binary op left right _ => .binary op.symbol left.erase right.erase
  | .var name _ => .var name
  | .property receiver name _ => .property receiver.erase name
  | .call name args _ => .call name (eraseArgs args)
  | .methodCall receiver name args _ => .methodCall receiver.erase name (eraseArgs args)
  | .object name fields methods _ => .object name (eraseFields fields) (eraseMethods methods)

def eraseArgs : List (Expr τ) → List ObjectLang.Expr
  | [] => []
  | e :: es => e.erase :: eraseArgs es

def eraseOption : Option (Expr τ) → Option ObjectLang.Expr
  | none => none
  | some e => some e.erase

def LetDecl.erase : LetDecl τ → ObjectLang.LetDecl
  | .mk name _ value => .mk name none (eraseOption value)

def eraseFields : List (LetDecl τ) → List ObjectLang.LetDecl
  | [] => []
  | d :: ds => d.erase :: eraseFields ds

def DefDecl.erase : DefDecl τ → ObjectLang.DefDecl
  | .mk name params _ body => .mk name (params.map Prod.fst) [] none (eraseBlock body)

def eraseMethods : List (DefDecl τ) → List ObjectLang.DefDecl
  | [] => []
  | d :: ds => d.erase :: eraseMethods ds

/-- The statement that an analysed one stands for. -/
def Stmt.erase : Stmt τ → ObjectLang.Stmt
  | .letStmt decl => .letStmt decl.erase
  | .defStmt decl => .defStmt decl.erase
  | .ifStmt condition thenBody elseBody =>
    .ifStmt condition.erase (eraseBlock thenBody) (eraseBlock elseBody)
  | .forStmt name _ iterable body => .forStmt name iterable.erase (eraseBlock body)
  | .returnStmt value => .returnStmt (eraseOption value)
  | .exprStmt e => .exprStmt e.erase
  | .assignVar name _ value => .assignStmt (.var name) value.erase
  | .assignProperty receiver name _ value => .assignStmt (.property receiver.erase name) value.erase

def eraseBlock : List (Stmt τ) → List ObjectLang.Stmt
  | [] => []
  | st :: sts => st.erase :: eraseBlock sts

end

/-- The program that an analysed one stands for. -/
def Program.erase : Program τ → ObjectLang.Program
  | .source stmts => .source (eraseBlock stmts)
  | .stmt st => .stmt st.erase
  | .expr e => .expr e.erase

end Typed

/-- The type that an annotation names, if there is such a type, and `any` for no annotation. -/
def annotated? : Option String → Option Ty
  | some word => (Prim.ofName? word).map Ty.prim
  | none => some (.prim .any)

mutual

/-- The annotations of an expression have become the types of the analysed one. -/
def Expr.Annotates : Expr → Typed.Expr Ty → Prop
  | .literal _, .literal _ _ | .var _, .var _ _ => True
  | .group inner, .group inner' _ => inner.Annotates inner'
  | .binary _ left right, .binary _ left' right' _ => left.Annotates left' ∧ right.Annotates right'
  | .property receiver _, .property receiver' _ _ => receiver.Annotates receiver'
  | .call _ args, .call _ args' _ => ArgsAnnotate args args'
  | .methodCall receiver _ args, .methodCall receiver' _ args' _ =>
    receiver.Annotates receiver' ∧ ArgsAnnotate args args'
  | .object _ fields methods, .object _ fields' methods' _ =>
    FieldsAnnotate fields fields' ∧ MethodsAnnotate methods methods'
  | _, _ => False

def ArgsAnnotate : List Expr → List (Typed.Expr Ty) → Prop
  | [], [] => True
  | e :: es, e' :: es' => e.Annotates e' ∧ ArgsAnnotate es es'
  | _, _ => False

def OptionAnnotates : Option Expr → Option (Typed.Expr Ty) → Prop
  | none, none => True
  | some e, some e' => e.Annotates e'
  | _, _ => False

/-- An annotation is the type of the variable, whatever its value. -/
def LetDecl.Annotates : LetDecl → Typed.LetDecl Ty → Prop
  | .mk _ typeName value, .mk _ type value' =>
    (∀ word, typeName = some word → annotated? (some word) = some type) ∧
      OptionAnnotates value value'

def FieldsAnnotate : List LetDecl → List (Typed.LetDecl Ty) → Prop
  | [], [] => True
  | d :: ds, d' :: ds' => d.Annotates d' ∧ FieldsAnnotate ds ds'
  | _, _ => False

/-- Every parameter and the result have their types, those that the annotations leave out as well. -/
def DefDecl.Annotates : DefDecl → Typed.DefDecl Ty → Prop
  | .mk _ params annotations returnType body, .mk _ params' returns body' =>
    params'.length = params.length ∧
      (∀ (i : Nat) (param : String × Ty), params'[i]? = some param →
        annotated? annotations[i]?.join = some param.2) ∧
      annotated? returnType = some returns ∧ BlockAnnotates body body'

def MethodsAnnotate : List DefDecl → List (Typed.DefDecl Ty) → Prop
  | [], [] => True
  | d :: ds, d' :: ds' => d.Annotates d' ∧ MethodsAnnotate ds ds'
  | _, _ => False

/-- The annotations of a statement have become the types of the analysed one. -/
def Stmt.Annotates : Stmt → Typed.Stmt Ty → Prop
  | .letStmt decl, .letStmt decl' => decl.Annotates decl'
  | .defStmt decl, .defStmt decl' => decl.Annotates decl'
  | .ifStmt condition thenBody elseBody, .ifStmt condition' thenBody' elseBody' =>
    condition.Annotates condition' ∧ BlockAnnotates thenBody thenBody' ∧
      BlockAnnotates elseBody elseBody'
  | .forStmt _ iterable body, .forStmt _ _ iterable' body' =>
    iterable.Annotates iterable' ∧ BlockAnnotates body body'
  | .returnStmt value, .returnStmt value' => OptionAnnotates value value'
  | .exprStmt e, .exprStmt e' => e.Annotates e'
  | .assignStmt _ value, .assignVar _ _ value' => value.Annotates value'
  | .assignStmt (.property receiver _) value, .assignProperty receiver' _ _ value' =>
    receiver.Annotates receiver' ∧ value.Annotates value'
  | _, _ => False

def BlockAnnotates : List Stmt → List (Typed.Stmt Ty) → Prop
  | [], [] => True
  | st :: sts, st' :: sts' => st.Annotates st' ∧ BlockAnnotates sts sts'
  | _, _ => False

end

/-- The annotations of a program have become the types of the analysed one. -/
def Program.Annotates : Program → Typed.Program Ty → Prop
  | .source stmts, .source stmts' => BlockAnnotates stmts stmts'
  | .stmt st, .stmt st' => st.Annotates st'
  | .expr e, .expr e' => e.Annotates e'
  | _, _ => False

end ObjectLang
