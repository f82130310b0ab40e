import ObjectLang.Tree.Basic

/-!
Programs without all that evaluation never looks at: annotations, parentheses and what stands after a
RETURN. Parentheses around the target of an assignment are looked at, since such a target cannot be
assigned to, so they stay.
-/

namespace ObjectLang

/-- Nothing after the statement in its list is reached. -/
def Stmt.isReturn : Stmt → Bool
  | .returnStmt _ => true
  | _ => false

mutual

/-- An expression without annotations, parentheses and unreachable statements in it. -/
def Expr.trim : Expr → Expr
  | .literal value => .literal value
  | .group inner => inner.trim
  | .binary symbol left right => .binary symbol left.trim right.trim
  | .var name => .var name
  | .property receiver name => .property receiver.trim name
  | .call name args => .call name (trimArgs args)
  | .methodCall receiver name args => .methodCall receiver.trim name (trimArgs args)
  | .object name fields methods => .object name (trimFields fields) (trimMethods methods)
  | .misplaced kind => .misplaced kind

def trimArgs : List Expr → List Expr
  | [] => []
  | e :: es => e.trim :: trimArgs es

def trimOption : Option Expr → Option Expr
  | none => none
  | some e => some e.trim

def LetDecl.trim : LetDecl → LetDecl
  | .mk name _ value => .mk name none (trimOption value)

def trimFields : List LetDecl → List LetDecl
  | [] => []
  | d :: ds => d.trim :: trimFields ds

def DefDecl.trim : DefDecl → DefDecl
  | .mk name params _ _ body => .mk name params [] none (trimBlock body)

def trimMethods : List DefDecl → List DefDecl
  | [] => []
  | d :: ds => d.trim :: trimMethods ds

/-- A statement without annotations, parentheses and unreachable statements in it. -/
def Stmt.trim : Stmt → Stmt
  | .letStmt decl => .letStmt decl.trim
  | .defStmt decl => .defStmt decl.trim
  | .ifStmt condition thenBody elseBody =>
    .ifStmt condition.trim (trimBlock thenBody) (trimBlock elseBody)
  | .forStmt name iterable body => .forStmt name iterable.trim (trimBlock body)
  | .returnStmt value => .returnStmt (trimOption value)
  | .exprStmt e => .exprStmt e.trim
  | .assignStmt (.group inner) value => .assignStmt (.group inner.trim) value.trim
  | .assignStmt target value => .assignStmt target.trim value.trim
  | .misplaced kind => .misplaced kind

/-- A list of statements up to its first RETURN. -/
def trimBlock : List Stmt → List Stmt
  | [] => []
  | st :: sts => st.trim :: if st.isReturn then [] else trimBlock sts

end

/-- A program without annotations, parentheses and unreachable statements. -/
def Program.trim : Program → Program
  | .source stmts => .source (trimBlock stmts)
  | .stmt st => .stmt st.trim
  | .expr e => .expr e.trim

/-- The outer one of two pairs of parentheses around a target stays. -/
example : (Stmt.assignStmt (.group (.group (.var "x"))) (.group (.var "y"))).trim =
    .assignStmt (.group (.var "x")) (.var "y") := rfl

/-- What is left of an expression without the parentheses around it. -/
def Expr.core : Expr → Expr
  | .group inner => inner.core
  | e => e

theorem Expr.trim_core (e : Expr) : e.core.trim = e.trim := by
  match e with
  | .group inner => exact trim_core inner
  | .literal _ | .binary .. | .var _ | .property .. | .call .. | .methodCall .. | .object ..
  | .misplaced _ => rfl

theorem Expr.core_ne_group (e inner : Expr) : e.core ≠ .group inner := by
  match e with
  | .group inner => exact core_ne_group inner _
  | .literal _ | .binary .. | .var _ | .property .. | .call .. | .methodCall .. | .object ..
  | .misplaced _ => exact nofun

/-- Two assignments that are trimmed alike have targets of one kind. -/
theorem Stmt.assign_of_trim {target target' value value' : Expr}
    (h : (assignStmt target value).trim = (assignStmt target' value').trim) :
    target.kind = target'.kind ∧ target.trim = target'.trim ∧ value.trim = value'.trim := by
  cases target <;> cases target' <;> simp_all [Stmt.trim, Expr.trim, Expr.kind]

theorem Stmt.isReturn_trim (st : Stmt) : st.trim.isReturn = st.isReturn := by
  cases st with
  | assignStmt target value => cases target <;> rfl
  | _ => rfl

/-! Nothing is left to trim in a trimmed program. -/

mutual

theorem Expr.trim_trim (e : Expr) : e.trim.trim = e.trim := by
  match e with
  | .literal _ | .var _ | .misplaced _ => rfl
  | .group inner => exact inner.trim_trim
  | .binary symbol left right => simp only [Expr.trim, left.trim_trim, right.trim_trim]
  | .property receiver name => simp only [Expr.trim, receiver.trim_trim]
  | .call name args => simp only [Expr.trim, trimArgs_trimArgs args]
  | .methodCall receiver name args =>
    simp only [Expr.trim, receiver.trim_trim, trimArgs_trimArgs args]
  | .object name fields methods =>
    simp only [Expr.trim, trimFields_trimFields fields, trimMethods_trimMethods methods]

theorem trimArgs_trimArgs (es : List Expr) : trimArgs (trimArgs es) = trimArgs es := by
  match es with
  | [] => rfl
  | e :: es => simp only [trimArgs, e.trim_trim, trimArgs_trimArgs es]

theorem trimOption_trimOption (value : Option Expr) :
    trimOption (trimOption value) = trimOption value := by
  match value with
  | none => rfl
  | some e => simp only [trimOption, e.trim_trim]

theorem LetDecl.trim_trim (d : LetDecl) : d.trim.trim = d.trim := by
  match d with
  | .mk name typeName value => simp only [LetDecl.trim, trimOption_trimOption value]

theorem trimFields_trimFields (ds : List LetDecl) : trimFields (trimFields ds) = trimFields ds := by
  match ds with
  | [] => rfl
  | d :: ds => simp only [trimFields, d.trim_trim, trimFields_trimFields ds]

theorem DefDecl.trim_trim (d : DefDecl) : d.trim.trim = d.trim := by
  match d with
  | .mk name params annotations returnType body =>
    simp only [DefDecl.trim, trimBlock_trimBlock body]

theorem trimMethods_trimMethods (ds : List DefDecl) :
    trimMethods (trimMethods ds) = trimMethods ds := by
  match ds with
  | [] => rfl
  | d :: ds => simp only [trimMethods, d.trim_trim, trimMethods_trimMethods ds]

theorem Stmt.trim_trim (st : Stmt) : st.trim.trim = st.trim := by
  match st with
  | .letStmt decl => simp only [Stmt.trim, decl.trim_trim]
  | .defStmt decl => simp only [Stmt.trim, decl.trim_trim]
  | .ifStmt condition thenBody elseBody =>
    simp only [Stmt.trim, condition.trim_trim, trimBlock_trimBlock thenBody,
      trimBlock_trimBlock elseBody]
  | .forStmt name iterable body =>
    simp only [Stmt.trim, iterable.trim_trim, trimBlock_trimBlock body]
  | .returnStmt value => simp only [Stmt.trim, trimOption_trimOption value]
  | .exprStmt e => simp only [Stmt.trim, e.trim_trim]
  | .assignStmt target value =>
    match target with
    | .group inner => simp only [Stmt.trim, inner.trim_trim, value.trim_trim]
    | .literal _ | .var _ | .misplaced _ => simp only [Stmt.trim, Expr.trim, value.trim_trim]
    | .binary _ left right =>
      simp only [Stmt.trim, Expr.trim, left.trim_trim, right.trim_trim, value.trim_trim]
    | .property receiver _ =>
      simp only [Stmt.trim, Expr.trim, receiver.trim_trim, value.trim_trim]
    | .call _ args =>
      simp only [Stmt.trim, Expr.trim, trimArgs_trimArgs args, value.trim_trim]
    | .methodCall receiver _ args =>
      simp only [Stmt.trim, Expr.trim, receiver.trim_trim, trimArgs_trimArgs args,
        value.trim_trim]
    | .object _ fields methods =>
      simp only [Stmt.trim, Expr.trim, trimFields_trimFields fields,
        trimMethods_trimMethods methods, value.trim_trim]
  | .misplaced kind => rfl

theorem trimBlock_trimBlock (sts : List Stmt) : trimBlock (trimBlock sts) = trimBlock sts := by
  match sts with
  | [] => rfl
  | st :: sts =>
    simp only [trimBlock, st.trim_trim, st.isReturn_trim]
    cases st.isReturn <;> simp [trimBlock_trimBlock sts]

end

theorem Program.trim_trim (p : Program) : p.trim.trim = p.trim := by
  cases p with
  | source stmts => simp only [Program.trim, trimBlock_trimBlock stmts]
  | stmt st => simp only [Program.trim, st.trim_trim]
  | expr e => simp only [Program.trim, e.trim_trim]

end ObjectLang
