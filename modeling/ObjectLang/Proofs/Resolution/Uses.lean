import ObjectLang.Values.Basic

/-!
Which names a function takes from outside. A function lives on in the scope that it was made in,
and that scope may get more names later, so what a name means to a function can change: `Lasting`
says of a block that it does not.
-/

namespace ObjectLang

section Uses

variable (name : String)

mutual

/-- An expression uses the name of a variable or function. The members of an object see nothing
around it, so whatever an object is made of uses no names from outside. -/
def Expr.Uses : Expr → Prop
  | .literal _ => False
  | .group inner => inner.Uses
  | .binary _ left right => left.Uses ∨ right.Uses
  | .var n => n = name
  | .property receiver _ => receiver.Uses
  | .call n args => n = name ∨ ArgsUse args
  | .methodCall receiver _ args => receiver.Uses ∨ ArgsUse args
  | .object _ _ _ => False
  | .misplaced _ => False

def ArgsUse : List Expr → Prop
  | [] => False
  | e :: es => e.Uses ∨ ArgsUse es

def OptionUses : Option Expr → Prop
  | none => False
  | some e => e.Uses

/-- A statement uses the name from the scope that it stands in, or from further out. -/
def Stmt.Uses : Stmt → Prop
  | .letStmt (.mk _ _ value) => OptionUses value
  | .defStmt (.mk n params _ _ body) => n ≠ name ∧ name ∉ params ∧ BlockUses body
  | .ifStmt condition thenBody elseBody =>
    condition.Uses ∨ BlockUses thenBody ∨ BlockUses elseBody
  | .forStmt n iterable body => iterable.Uses ∨ n ≠ name ∧ BlockUses body
  | .returnStmt value => OptionUses value
  | .exprStmt e => e.Uses
  | .assignStmt target value => target.Uses ∨ value.Uses
  | .misplaced _ => False

/-- A block uses the name before it declares it, if it does. -/
def BlockUses : List Stmt → Prop
  | [] => False
  | st :: sts => st.Uses ∨ name ∉ st.declared ∧ BlockUses sts

end

end Uses

/-- A function with given parameters and a given body uses the name from outside. -/
def UsedFree (params : List String) (body : List Stmt) (name : String) : Prop :=
  name ∉ params ∧ BlockUses name body

/-- The body of a definition uses the name from outside. -/
def DefDecl.Uses (name : String) : DefDecl → Prop
  | .mk _ params _ _ body => UsedFree params body name

section Assigns

variable (name : String)

mutual

/-- A statement gives the name another value in the scope that it stands in, or further out. -/
def Stmt.Assigns : Stmt → Prop
  | .defStmt (.mk n params _ _ body) => n ≠ name ∧ name ∉ params ∧ BlockAssigns body
  | .ifStmt _ thenBody elseBody => BlockAssigns thenBody ∨ BlockAssigns elseBody
  | .forStmt n _ body => n ≠ name ∧ BlockAssigns body
  | .assignStmt (.var n) _ => n = name
  | _ => False

/-- A block assigns to the name before it declares it, if it does. -/
def BlockAssigns : List Stmt → Prop
  | [] => False
  | st :: sts => st.Assigns ∨ name ∉ st.declared ∧ BlockAssigns sts

end

/-- The body of a definition assigns to the name outside. -/
def DefDecl.Assigns : DefDecl → Prop
  | .mk _ params _ _ body => name ∉ params ∧ BlockAssigns name body

end Assigns

/-- The expression asks an object for a member, perhaps in parentheses, and does not call it. -/
def Expr.AsksMember : Expr → Prop
  | .property _ _ => True
  | .group inner => inner.AsksMember
  | _ => False

/-- The names that a block binds. -/
def declaredAll (sts : List Stmt) : List String := sts.flatMap Stmt.declared

section Captures

/-! Which names functions hold on to. `watched` says which names are of interest in a function with
given parameters and a given body. -/

variable (watched : List String → List Stmt → String → Prop) (name : String)

mutual

/-- A function that the statement makes, now or when another one is called, has an interest in the
name, and between the function and the scope of the statement nothing binds it. -/
def Stmt.Captures : Stmt → Prop
  | .defStmt (.mk _ params _ _ body) =>
    watched params body name ∨ name ∉ params ∧ name ∉ declaredAll body ∧ BlockCaptures body
  | .ifStmt _ thenBody elseBody =>
    name ∉ declaredAll thenBody ∧ BlockCaptures thenBody ∨
      name ∉ declaredAll elseBody ∧ BlockCaptures elseBody
  | .forStmt n _ body => n ≠ name ∧ name ∉ declaredAll body ∧ BlockCaptures body
  | _ => False

def BlockCaptures : List Stmt → Prop
  | [] => False
  | st :: sts => st.Captures ∨ BlockCaptures sts

end

/-- A closure, or a function that its body makes, has an interest in the name, which is not bound in
between. -/
def Closure.Captures (c : Closure) : Prop :=
  watched c.params c.body name ∨
    name ∉ c.params ∧ name ∉ declaredAll c.body ∧ BlockCaptures watched name c.body

/-- No name is declared in a block after a statement that captures it. -/
def Lasting (sts : List Stmt) : Prop :=
  sts.Pairwise fun st later => ∀ n, st.Captures watched n → n ∉ later.declared

end Captures

section Every

variable (P : Expr → Prop) (B : List Stmt → Prop)

mutual

/-- Every expression inside has the property `P`, and every block the property `B`. -/
def Expr.Every : Expr → Prop
  | .literal value => P (.literal value)
  | .group inner => P (.group inner) ∧ inner.Every
  | .binary symbol left right => P (.binary symbol left right) ∧ left.Every ∧ right.Every
  | .var name => P (.var name)
  | .property receiver name => P (.property receiver name) ∧ receiver.Every
  | .call name args => P (.call name args) ∧ ArgsEvery args
  | .methodCall receiver name args =>
    P (.methodCall receiver name args) ∧ receiver.Every ∧ ArgsEvery args
  | .object name fields methods =>
    P (.object name fields methods) ∧ FieldsEvery fields ∧ MethodsEvery methods
  | .misplaced kind => P (.misplaced kind)

def ArgsEvery : List Expr → Prop
  | [] => True
  | e :: es => e.Every ∧ ArgsEvery es

def OptionEvery : Option Expr → Prop
  | none => True
  | some e => e.Every

def LetDecl.Every : LetDecl → Prop
  | .mk _ _ value => OptionEvery value

def FieldsEvery : List LetDecl → Prop
  | [] => True
  | d :: ds => d.Every ∧ FieldsEvery ds

def DefDecl.Every : DefDecl → Prop
  | .mk _ _ _ _ body => B body ∧ StmtsEvery body

def MethodsEvery : List DefDecl → Prop
  | [] => True
  | d :: ds => d.Every ∧ MethodsEvery ds

def Stmt.Every : Stmt → Prop
  | .letStmt decl => decl.Every
  | .defStmt decl => decl.Every
  | .ifStmt condition thenBody elseBody =>
    condition.Every ∧ (B thenBody ∧ StmtsEvery thenBody) ∧ B elseBody ∧ StmtsEvery elseBody
  | .forStmt _ iterable body => iterable.Every ∧ B body ∧ StmtsEvery body
  | .returnStmt value => OptionEvery value
  | .exprStmt e => e.Every
  | .assignStmt target value => target.Every ∧ value.Every
  | .misplaced _ => True

def StmtsEvery : List Stmt → Prop
  | [] => True
  | st :: sts => st.Every ∧ StmtsEvery sts

end

attribute [simp] Expr.Every ArgsEvery OptionEvery LetDecl.Every FieldsEvery DefDecl.Every MethodsEvery
  Stmt.Every StmtsEvery

theorem MethodsEvery.of_mem {P : Expr → Prop} {B : List Stmt → Prop} {ds : List DefDecl}
    (h : MethodsEvery P B ds) {d : DefDecl} (hd : d ∈ ds) : d.Every P B := by
  induction ds with
  | nil => cases hd
  | cons d' ds ih =>
    rcases List.mem_cons.1 hd with rfl | hd
    · exact h.1
    · exact ih h.2 hd

theorem StmtsEvery.of_mem {P : Expr → Prop} {B : List Stmt → Prop} {sts : List Stmt}
    (h : StmtsEvery P B sts) {st : Stmt} (hst : st ∈ sts) : st.Every P B := by
  induction sts with
  | nil => cases hst
  | cons st' sts ih =>
    obtain rfl | hst := List.mem_cons.1 hst
    · exact h.1
    · exact ih h.2 hst

/-- Every expression of a program has the property `P`, and every block the property `B`. -/
def Program.Every : Program → Prop
  | .source stmts => B stmts ∧ StmtsEvery P B stmts
  | .stmt st => st.Every P B
  | .expr e => e.Every P B

end Every

end ObjectLang
