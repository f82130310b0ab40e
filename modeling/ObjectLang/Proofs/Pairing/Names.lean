import ObjectLang.Tree.Basic

/-!
Programs that do without certain names. A name counts where it stands for a variable, a function or
a parameter, or where it is declared; what a property or a method that is called is called does not
matter, since it is looked up in an object.
-/

namespace ObjectLang

section Avoids

variable (names : List String)

mutual

/-- An expression says nothing about the names. -/
def Expr.Avoids : Expr → Prop
  | .literal _ => True
  | .group inner => inner.Avoids
  | .binary _ left right => left.Avoids ∧ right.Avoids
  | .var name => name ∉ names
  | .property receiver _ => receiver.Avoids
  | .call name args => name ∉ names ∧ ArgsAvoid args
  | .methodCall receiver _ args => receiver.Avoids ∧ ArgsAvoid args
  | .object _ fields methods => FieldsAvoid fields ∧ MethodsAvoid methods
  | .misplaced _ => True

def ArgsAvoid : List Expr → Prop
  | [] => True
  | e :: es => e.Avoids ∧ ArgsAvoid es

def OptionAvoids : Option Expr → Prop
  | none => True
  | some e => e.Avoids

def LetDecl.Avoids : LetDecl → Prop
  | .mk name _ value => name ∉ names ∧ OptionAvoids value

def FieldsAvoid : List LetDecl → Prop
  | [] => True
  | d :: ds => d.Avoids ∧ FieldsAvoid ds

def DefDecl.Avoids : DefDecl → Prop
  | .mk name params _ _ body => name ∉ names ∧ (∀ n ∈ params, n ∉ names) ∧ BlockAvoids body

def MethodsAvoid : List DefDecl → Prop
  | [] => True
  | d :: ds => d.Avoids ∧ MethodsAvoid ds

/-- A statement says nothing about the names. -/
def Stmt.Avoids : Stmt → Prop
  | .letStmt decl => decl.Avoids
  | .defStmt decl => decl.Avoids
  | .ifStmt condition thenBody elseBody =>
    condition.Avoids ∧ BlockAvoids thenBody ∧ BlockAvoids elseBody
  | .forStmt name iterable body => name ∉ names ∧ iterable.Avoids ∧ BlockAvoids body
  | .returnStmt value => OptionAvoids value
  | .exprStmt e => e.Avoids
  | .assignStmt target value => target.Avoids ∧ value.Avoids
  | .misplaced _ => True

def BlockAvoids : List Stmt → Prop
  | [] => True
  | st :: sts => st.Avoids ∧ BlockAvoids sts

end

/-- Nowhere in a program does one of the names stand for a variable, a function or a parameter, and
nowhere is one declared. -/
def Program.Avoids : Program → Prop
  | .source stmts => BlockAvoids names stmts
  | .stmt st => st.Avoids names
  | .expr e => e.Avoids names

end Avoids

variable {names : List String}

theorem DefDecl.Avoids.name_not_mem {d : DefDecl} (h : d.Avoids names) : d.name ∉ names := by
  cases d
  exact h.1

theorem forall_methods_avoid {ds : List DefDecl} :
    MethodsAvoid names ds ↔ ∀ d ∈ ds, d.Avoids names := by
  induction ds with
  | nil => simp [MethodsAvoid]
  | cons d ds ih => simp [MethodsAvoid, ih]

/-! A program does without no names at all. -/

mutual

theorem Expr.avoids_nil (e : Expr) : e.Avoids [] := by
  cases e with
  | literal _ | misplaced _ => trivial
  | group inner => exact inner.avoids_nil
  | binary _ left right => exact ⟨left.avoids_nil, right.avoids_nil⟩
  | var _ => exact List.not_mem_nil
  | property receiver _ => exact receiver.avoids_nil
  | call _ args => exact ⟨List.not_mem_nil, argsAvoid_nil args⟩
  | methodCall receiver _ args => exact ⟨receiver.avoids_nil, argsAvoid_nil args⟩
  | object _ fields methods => exact ⟨fieldsAvoid_nil fields, methodsAvoid_nil methods⟩

theorem argsAvoid_nil (es : List Expr) : ArgsAvoid [] es := by
  match es with
  | [] => trivial
  | e :: es => exact ⟨e.avoids_nil, argsAvoid_nil es⟩

theorem optionAvoids_nil (value : Option Expr) : OptionAvoids [] value := by
  match value with
  | none => trivial
  | some e => exact e.avoids_nil

theorem LetDecl.avoids_nil (d : LetDecl) : d.Avoids [] := by
  match d with
  | .mk _ _ value => exact ⟨List.not_mem_nil, optionAvoids_nil value⟩

theorem fieldsAvoid_nil (ds : List LetDecl) : FieldsAvoid [] ds := by
  match ds with
  | [] => trivial
  | d :: ds => exact ⟨d.avoids_nil, fieldsAvoid_nil ds⟩

theorem DefDecl.avoids_nil (d : DefDecl) : d.Avoids [] := by
  match d with
  | .mk _ _ _ _ body =>
    exact ⟨List.not_mem_nil, fun _ _ => List.not_mem_nil, blockAvoids_nil body⟩

theorem methodsAvoid_nil (ds : List DefDecl) : MethodsAvoid [] ds := by
  match ds with
  | [] => trivial
  | d :: ds => exact ⟨d.avoids_nil, methodsAvoid_nil ds⟩

theorem Stmt.avoids_nil (st : Stmt) : st.Avoids [] := by
  cases st with
  | letStmt decl | defStmt decl => exact decl.avoids_nil
  | ifStmt condition thenBody elseBody =>
    exact ⟨condition.avoids_nil, blockAvoids_nil thenBody, blockAvoids_nil elseBody⟩
  | forStmt _ iterable body => exact ⟨List.not_mem_nil, iterable.avoids_nil, blockAvoids_nil body⟩
  | returnStmt value => exact optionAvoids_nil value
  | exprStmt e => exact e.avoids_nil
  | assignStmt target value => exact ⟨target.avoids_nil, value.avoids_nil⟩
  | misplaced _ => trivial

theorem blockAvoids_nil (sts : List Stmt) : BlockAvoids [] sts := by
  match sts with
  | [] => trivial
  | st :: sts => exact ⟨st.avoids_nil, blockAvoids_nil sts⟩

end

theorem Program.avoids_nil (p : Program) : p.Avoids [] := by
  cases p with
  | source stmts => exact blockAvoids_nil stmts
  | stmt st => exact st.avoids_nil
  | expr e => exact e.avoids_nil

end ObjectLang
