import ObjectLang.Proofs.Resolution.Uses

/-!
Elementary programs, which define no functions of their own and assign to no members, and the height
of trees. A tree is as high as expressions and statements stand in each other; where they stand beside
each other the highest counts.
-/

namespace ObjectLang

/-- The statement neither defines a function nor assigns to a member. -/
def Stmt.IsElementary : Stmt → Prop
  | .defStmt _ | .assignStmt (.property _ _) _ => False
  | _ => True

/-- No object is made with methods. -/
def Expr.NoMethods : Expr → Prop
  | .object _ _ methods => methods = []
  | _ => True

/-- All statements of a block are elementary. -/
def ElementaryBlock (sts : List Stmt) : Prop := ∀ st ∈ sts, st.IsElementary

/-- Inside an expression there are no methods and no other functions, and no member is assigned to. -/
abbrev Expr.Elementary : Expr → Prop := Expr.Every Expr.NoMethods ElementaryBlock

/-- A statement is elementary, and so is all that is inside it. -/
def Stmt.Elementary (st : Stmt) : Prop := st.IsElementary ∧ st.Every Expr.NoMethods ElementaryBlock

/-- A program defines no functions, also none as methods, and assigns to no members. -/
def Program.Elementary : Program → Prop
  | .source stmts => ∀ st ∈ stmts, st.Elementary
  | .stmt st => st.Elementary
  | .expr e => e.Elementary

theorem elementary_of_block {sts : List Stmt} (h : ElementaryBlock sts)
    (hall : StmtsEvery Expr.NoMethods ElementaryBlock sts) : ∀ st ∈ sts, st.Elementary :=
  fun st hst => ⟨h st hst, hall.of_mem hst⟩

mutual

/-- How many expressions and statements stand in each other in an expression. The fields of an object
belong to it. -/
def Expr.height : Expr → Nat
  | .literal _ | .var _ | .misplaced _ => 1
  | .group inner => inner.height + 1
  | .binary _ left right => max left.height right.height + 1
  | .property receiver _ => receiver.height + 1
  | .call _ args => argsHeight args + 1
  | .methodCall receiver _ args => max receiver.height (argsHeight args) + 1
  | .object _ fields methods => max (fieldsHeight fields) (methodsHeight methods) + 1

def argsHeight : List Expr → Nat
  | [] => 0
  | e :: es => max e.height (argsHeight es)

def optionHeight : Option Expr → Nat
  | none => 0
  | some e => e.height

def LetDecl.height : LetDecl → Nat
  | .mk _ _ value => optionHeight value

def fieldsHeight : List LetDecl → Nat
  | [] => 0
  | d :: ds => max d.height (fieldsHeight ds)

def DefDecl.height : DefDecl → Nat
  | .mk _ _ _ _ body => blockHeight body

def methodsHeight : List DefDecl → Nat
  | [] => 0
  | d :: ds => max d.height (methodsHeight ds)

def Stmt.height : Stmt → Nat
  | .letStmt decl => decl.height + 1
  | .defStmt decl => decl.height + 1
  | .ifStmt condition thenBody elseBody =>
    max condition.height (max (blockHeight thenBody) (blockHeight elseBody)) + 1
  | .forStmt _ iterable body => max iterable.height (blockHeight body) + 1
  | .returnStmt value => optionHeight value + 1
  | .exprStmt e => e.height + 1
  | .assignStmt target value => max target.height value.height + 1
  | .misplaced _ => 1

def blockHeight : List Stmt → Nat
  | [] => 0
  | st :: sts => max st.height (blockHeight sts)

end

/-- How many expressions and statements stand in each other in a program. -/
def Program.height : Program → Nat
  | .source stmts => blockHeight stmts
  | .stmt st => st.height
  | .expr e => e.height

theorem Expr.height_pos (e : Expr) : 0 < e.height := by
  cases e <;> exact Nat.succ_pos _

theorem Stmt.height_pos (st : Stmt) : 0 < st.height := by
  cases st <;> exact Nat.succ_pos _

/-- Every statement of a block is at most as high as the block. -/
theorem height_le_of_mem {sts : List Stmt} {st : Stmt} (h : st ∈ sts) :
    st.height ≤ blockHeight sts := by
  induction sts with
  | nil => cases h
  | cons st' sts ih =>
    obtain rfl | h := List.mem_cons.1 h
    · exact Nat.le_max_left ..
    · exact Nat.le_trans (ih h) (Nat.le_max_right ..)

end ObjectLang
