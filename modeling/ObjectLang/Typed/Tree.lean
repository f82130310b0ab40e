import ObjectLang.Tree.Basic
import ObjectLang.Tree.Operator

/-!
Programs after analysis: every expression carries an annotation, names of types are resolved, and
assignments are split by what they assign to. The annotation is a parameter, so that the same tree
can carry types, or pictures of types that no longer need the scopes the types live in.
-/

namespace ObjectLang.Typed

mutual

/-- An expression and the annotation of each of its parts. -/
inductive Expr (τ : Type) where
  | literal (value : Literal) (type : τ)
  | group (inner : Expr τ) (type : τ)
  | binary (op : Operator) (left right : Expr τ) (type : τ)
  | var (name : String) (type : τ)
  | property (receiver : Expr τ) (name : String) (type : τ)
  | call (name : String) (args : List (Expr τ)) (type : τ)
  | methodCall (receiver : Expr τ) (name : String) (args : List (Expr τ)) (type : τ)
  | object (name : Option String) (fields : List (LetDecl τ)) (methods : List (DefDecl τ))
      (type : τ)

/-- A statement. A loop variable and the target of an assignment have their annotation here. -/
inductive Stmt (τ : Type) where
  | letStmt (decl : LetDecl τ)
  | defStmt (decl : DefDecl τ)
  | ifStmt (condition : Expr τ) (thenBody elseBody : List (Stmt τ))
  | forStmt (name : String) (type : τ) (iterable : Expr τ) (body : List (Stmt τ))
  | returnStmt (value : Option (Expr τ))
  | exprStmt (expr : Expr τ)
  | assignVar (name : String) (type : τ) (value : Expr τ)
  | assignProperty (receiver : Expr τ) (name : String) (type : τ) (value : Expr τ)

/-- A variable or field with the annotation that its declaration gives it. -/
inductive LetDecl (τ : Type) where
  | mk (name : String) (type : τ) (value : Option (Expr τ))

/-- A function or method with the annotations of its parameters and its result. -/
inductive DefDecl (τ : Type) where
  | mk (name : String) (params : List (String × τ)) (returns : τ) (body : List (Stmt τ))

end

/-- An analysed source, statement or expression. -/
inductive Program (τ : Type) where
  | source (stmts : List (Stmt τ))
  | stmt (stmt : Stmt τ)
  | expr (expr : Expr τ)

variable {τ υ : Type}

/-- The annotation of an expression as a whole. -/
def Expr.type : Expr τ → τ
  | .literal _ type | .group _ type | .binary _ _ _ type | .var _ type | .property _ _ type
  | .call _ _ type | .methodCall _ _ _ type | .object _ _ _ type => type

variable {m : Type → Type} [Monad m] (f : τ → m υ)

mutual

/-- Replaces every annotation, an expression's own after those of its parts. -/
def Expr.traverse : Expr τ → m (Expr υ)
  | .literal value type => return .literal value (← f type)
  | .group inner type => return .group (← inner.traverse) (← f type)
  | .binary op left right type =>
    return .binary op (← left.traverse) (← right.traverse) (← f type)
  | .var name type => return .var name (← f type)
  | .property receiver name type => return .property (← receiver.traverse) name (← f type)
  | .call name args type => return .call name (← traverseArgs args) (← f type)
  | .methodCall receiver name args type =>
    return .methodCall (← receiver.traverse) name (← traverseArgs args) (← f type)
  | .object name fields methods type =>
    return .object name (← traverseFields fields) (← traverseMethods methods) (← f type)

def traverseArgs : List (Expr τ) → m (List (Expr υ))
  | [] => return []
  | e :: es => return (← e.traverse) :: (← traverseArgs es)

def traverseFields : List (LetDecl τ) → m (List (LetDecl υ))
  | [] => return []
  | d :: ds => return (← d.traverse) :: (← traverseFields ds)

def traverseMethods : List (DefDecl τ) → m (List (DefDecl υ))
  | [] => return []
  | d :: ds => return (← d.traverse) :: (← traverseMethods ds)

def traverseOption : Option (Expr τ) → m (Option (Expr υ))
  | none => return none
  | some e => return some (← e.traverse)

/-- Replaces every annotation of a declaration, that of the name before those of the value. -/
def LetDecl.traverse : LetDecl τ → m (LetDecl υ)
  | .mk name type value => return .mk name (← f type) (← traverseOption value)

/-- Replaces every annotation of a definition: parameters, result, body. -/
def DefDecl.traverse : DefDecl τ → m (DefDecl υ)
  | .mk name params returns body =>
    return .mk name (← params.mapM fun p => return (p.1, ← f p.2)) (← f returns)
      (← traverseBody body)

/-- Replaces every annotation of a statement, from left to right. -/
def Stmt.traverse : Stmt τ → m (Stmt υ)
  | .letStmt decl => return .letStmt (← decl.traverse)
  | .defStmt decl => return .defStmt (← decl.traverse)
  | .ifStmt condition thenBody elseBody =>
    return .ifStmt (← condition.traverse) (← traverseBody thenBody) (← traverseBody elseBody)
  | .forStmt name type iterable body =>
    return .forStmt name (← f type) (← iterable.traverse) (← traverseBody body)
  | .returnStmt value => return .returnStmt (← traverseOption value)
  | .exprStmt e => return .exprStmt (← e.traverse)
  | .assignVar name type value => return .assignVar name (← f type) (← value.traverse)
  | .assignProperty receiver name type value =>
    return .assignProperty (← receiver.traverse) name (← f type) (← value.traverse)

def traverseBody : List (Stmt τ) → m (List (Stmt υ))
  | [] => return []
  | s :: ss => return (← s.traverse) :: (← traverseBody ss)

end

/-- Replaces every annotation of a program. -/
def Program.traverse : Program τ → m (Program υ)
  | .source stmts => return .source (← traverseBody f stmts)
  | .stmt s => return .stmt (← s.traverse f)
  | .expr e => return .expr (← e.traverse f)

end ObjectLang.Typed
