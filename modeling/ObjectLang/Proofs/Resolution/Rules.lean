import ObjectLang.Evaluation.Error
import ObjectLang.Proofs.Resolution.Sites
import ObjectLang.Proofs.Resolution.Uses
import ObjectLang.Proofs.Scoping.Rules
import ObjectLang.Proofs.Typing.Rules

/-!
What analysis knows of a program when it is run, as rules for trees without annotations. What is to
be shown of a run is a parameter: for some ends values of primitive types may be anything.
-/

namespace ObjectLang

open Typed

/-- A type of functions. -/
def Ty.IsFn (t : Ty) : Prop := ∃ params returns, t = .fn params returns

@[simp] theorem Ty.not_isFn_prim {p : Prim} : ¬ (Ty.prim p).IsFn := by
  rintro ⟨_, _, ⟨⟩⟩

@[simp] theorem Ty.not_isFn_object {members : ScopeId} : ¬ (Ty.object members).IsFn := by
  rintro ⟨_, _, ⟨⟩⟩

/-- What is shown of a run: which scopes bind the names that are watched in functions, that no call
has the wrong number of arguments, that no member is missing, that no method is replaced, or that
every value is of a kind that its type promises. Scopes and types are those of a whole analysed
program. -/
inductive Aim where
  | owners (whole : Site) (watched : List String → List Stmt → String → Prop)
  | arity
  | members
  | methods
  | kinds (whole : Site)

namespace Aim

/-- The names that have to keep their meaning in a function with given parameters and body. -/
def watched : Aim → List String → List Stmt → String → Prop
  | owners _ watched => watched
  | arity | members | methods | kinds _ => UsedFree

/-- Types are of use only where values have to fit them. -/
def Typed : Aim → Prop
  | owners _ _ => False
  | arity | members | methods | kinds _ => True

/-- The kinds of values matter as well. -/
def Precise : Aim → Prop
  | kinds _ => True
  | _ => False

theorem Precise.typed {aim : Aim} (h : aim.Precise) : aim.Typed := by
  cases aim with
  | kinds whole => trivial
  | _ => exact h.elim

theorem Precise.ne_arity {aim : Aim} (h : aim.Precise) : aim ≠ .arity := by
  rintro rfl
  exact h

/-- A run may end in this way. -/
def Allows : Aim → Fault → Prop
  | arity, .error e => e.kind ≠ .arityMismatch
  | members, .error e => e.kind ≠ .undefinedMember
  | kinds _, .error e => e.kind ≠ .typeError
  | _, _ => True

/-- A function of this name must not be a method: methods are not called like other functions, and
they are not assigned to. -/
def Apart (assigned : Prop) : Aim → Prop
  | arity => True
  | methods => assigned
  | owners _ _ | members | kinds _ => False

/-- This is what is at a place in the analysed program. -/
def Sees (π : Path) (x : Site) : Aim → Prop
  | owners whole _ | kinds whole => whole.at? π = some x
  | _ => True

theorem Sees.turn {aim : Aim} {π : Path} {x y : Site} {turn : Turn} (h : aim.Sees π x)
    (hy : x.turn? π turn = some y) : aim.Sees (turn :: π) y := by
  cases aim with
  | owners whole watched | kinds whole =>
    show (whole.at? π).bind (fun z => z.turn? π turn) = some y
    rw [show whole.at? π = some x from h]
    exact hy
  | _ => trivial

/-- The analysed expression at the place stands for this one, and has this type. -/
def Knows (aim : Aim) (π : Path) (e : Expr) (t : Ty) : Prop :=
  ∃ blocks te, aim.Sees π ⟨blocks, .expr te⟩ ∧ te.erase = e.bare ∧ te.type = t

/-- The analysed block at the place stands for this one, and the names that it sees have the types that
it uses them with. -/
def KnowsBlock (Γ : TypeScopes) (aim : Aim) (π : Path) (blocks : Blocks) (returns : Option Ty)
    (body : List Stmt) : Prop :=
  ∃ tbody, aim.Sees π ⟨blocks, .block tbody⟩ ∧ eraseBlock tbody = bareBlock body ∧
    BlockTyped Γ blocks.env returns tbody

/-- Where the kinds of values matter, a part of an analysed program brings no value to a place that its
type leaves out. -/
def Clears (aim : Aim) (k : Node) : Prop := aim.Precise → k.Clear

theorem Apart.imp {aim : Aim} {p q : Prop} (h : p → q) (hp : aim.Apart p) : aim.Apart q := by
  cases aim with
  | arity => trivial
  | methods => exact h hp
  | owners _ _ | members | kinds _ => exact hp.elim

end Aim

/-- No method of an object is called, read or assigned to by its name alone in the methods of that
object. -/
def MethodsApart : Expr → Prop
  | .object _ _ methods => ∀ d ∈ methods, ∀ e ∈ methods, ¬ d.Uses e.name
  | _ => True

/-- No method of an object assigns to a method of that object by its name alone. -/
def MethodsUnassigned : Expr → Prop
  | .object _ _ methods => ∀ d ∈ methods, ∀ e ∈ methods, ¬ d.Assigns e.name
  | _ => True

/-- An object is not asked for itself as a member. -/
def NotSelfMember : Expr → Prop
  | .property _ name => name ≠ selfName
  | _ => True

/-- What expressions must be like. -/
def Aim.Permits : Aim → Expr → Prop
  | owners _ _ | kinds _ => fun _ => True
  | arity => MethodsApart
  | members => NotSelfMember
  | methods => MethodsUnassigned

/-- A name that is kept apart is not used for a method in the methods of an object. -/
theorem Aim.apart_of_permits {aim : Aim} {name : Option String} {fields : List LetDecl}
    {methods : List DefDecl} (h : aim.Permits (.object name fields methods)) :
    ∀ d ∈ methods, ∀ e ∈ methods, d.Uses e.name → ¬ aim.Apart (d.Assigns e.name) := by
  intro d hd e he hu ha
  cases aim with
  | arity => exact h d hd e he hu
  | methods => exact h d hd e he ha
  | owners _ _ | members | kinds _ => exact ha

/-- A function is taken off the object that it is a member of. -/
def Expr.Detaches (t : Ty) (e : Expr) : Prop := t.IsFn ∧ e.AsksMember

namespace Typed

/-- The expression asks an object for a member, perhaps in parentheses, and does not call it. -/
def Expr.AsksMember : Expr Ty → Prop
  | .property _ _ _ => True
  | .group inner _ => inner.AsksMember
  | _ => False

/-- A function is taken off the object that it is a member of. -/
def Expr.Detaches (t : Ty) (e : Expr Ty) : Prop := t.IsFn ∧ e.AsksMember

mutual

/-- Methods stay with their objects: no variable and no field of a function type gets a member of an
object. -/
def Expr.MethodsStay : Expr Ty → Prop
  | .literal _ _ | .var _ _ => True
  | .group inner _ => inner.MethodsStay
  | .binary _ left right _ => left.MethodsStay ∧ right.MethodsStay
  | .property receiver _ _ => receiver.MethodsStay
  | .call _ args _ => ArgsStay args
  | .methodCall receiver _ args _ => receiver.MethodsStay ∧ ArgsStay args
  | .object _ fields methods _ => FieldsStay fields ∧ BodiesStay methods

def ArgsStay : List (Expr Ty) → Prop
  | [] => True
  | e :: es => e.MethodsStay ∧ ArgsStay es

def OptionStay : Option (Expr Ty) → Prop
  | none => True
  | some e => e.MethodsStay

def LetDecl.MethodsStay : LetDecl Ty → Prop
  | .mk _ type value => (∀ e ∈ value, ¬ e.Detaches type) ∧ OptionStay value

def FieldsStay : List (LetDecl Ty) → Prop
  | [] => True
  | d :: ds => d.MethodsStay ∧ FieldsStay ds

def DefDecl.MethodsStay : DefDecl Ty → Prop
  | .mk _ _ _ body => BlockStays body

def BodiesStay : List (DefDecl Ty) → Prop
  | [] => True
  | d :: ds => d.MethodsStay ∧ BodiesStay ds

def Stmt.MethodsStay : Stmt Ty → Prop
  | .letStmt decl => decl.MethodsStay
  | .defStmt decl => decl.MethodsStay
  | .ifStmt condition thenBody elseBody =>
    condition.MethodsStay ∧ BlockStays thenBody ∧ BlockStays elseBody
  | .forStmt _ _ iterable body => iterable.MethodsStay ∧ BlockStays body
  | .returnStmt value => OptionStay value
  | .exprStmt e => e.MethodsStay
  | .assignVar _ type value => ¬ value.Detaches type ∧ value.MethodsStay
  | .assignProperty receiver _ _ value => receiver.MethodsStay ∧ value.MethodsStay

def BlockStays : List (Stmt Ty) → Prop
  | [] => True
  | st :: sts => st.MethodsStay ∧ BlockStays sts

end

def Program.MethodsStay : Program Ty → Prop
  | .source stmts => BlockStays stmts
  | .stmt st => st.MethodsStay
  | .expr e => e.MethodsStay

end Typed

section Rules

variable (Γ : TypeScopes) (aim : Aim)

mutual

/-- An expression at a place has a type where the names of `env` are in scope. -/
def Expr.Has (env : Blocks) (π : Path) : Expr → Ty → Prop
  | .literal value, t => aim.Knows π (.literal value) t ∧
    ∃ p, Analysis.literalType value = .ok p ∧ t = .prim p
  | .group inner, t => aim.Knows π (.group inner) t ∧ inner.Has env (.part 0 :: π) t
  | .binary symbol left right, t => aim.Knows π (.binary symbol left right) t ∧ ∃ op l r,
    Operator.ofSymbol? symbol = some op ∧ left.Has env (.part 0 :: π) l ∧
      right.Has env (.part 1 :: π) r ∧ OperatorTyped Γ op l r t ∧
        (aim.Precise → op.Orders → l ≠ .prim .comparable)
  | .var name, t => aim.Knows π (.var name) t ∧ ∃ place, env.find name = some (place, t)
  | .property receiver name, t => aim.Knows π (.property receiver name) t ∧
    ∃ o, receiver.Has env (.part 0 :: π) (.object o) ∧ Γ.lookupOwn o name = some t
  | .call name args, t => aim.Knows π (.call name args) t ∧ ∃ params place,
    env.find name = some (place, .fn params t) ∧ ArgsHave env (.part 0 :: π) args params
  | .methodCall receiver name args, t => aim.Knows π (.methodCall receiver name args) t ∧
    ∃ o params, receiver.Has env (.part 0 :: π) (.object o) ∧
      Γ.lookupOwn o name = some (.fn params t) ∧ ArgsHave env (.part 1 :: π) args params
  | .object name fields methods, t => aim.Knows π (.object name fields methods) t ∧ ∃ o fs ms,
    t = .object o ∧ (Γ.own o).entries = fs ++ ms ++ [(selfName, .object o)] ∧
      FieldsHave [(some π, [])] (.part 0 :: π) fields fs ∧
        MethodsHave [(some π, fs ++ ms ++ [(selfName, .object o)])] π methods ms
  | .misplaced _, _ => False

/-- There are as many arguments as parameters, each of which fits the type of its parameter. -/
def ArgsHave (env : Blocks) (π : Path) : List Expr → List Ty → Prop
  | [], params => params = []
  | e :: es, params => ∃ param rest u, params = param :: rest ∧ e.Has env (.part 0 :: π) u ∧
    u.isSubtype Γ param = true ∧ ArgsHave env (.part 1 :: π) es rest

/-- A value fits the type that is asked for. Without a value, the type is primitive, and nil fits
it. -/
def OptionHas (env : Blocks) (π : Path) : Option Expr → Ty → Prop
  | none, t => ∃ p, t = .prim p ∧ (aim.Precise → p.Includes .nil)
  | some e, t => ∃ u, e.Has env (.part 0 :: π) u ∧ u.isSubtype Γ t = true

/-- A declaration binds a name with its type. -/
def LetDecl.Has (env : Blocks) (π : Path) : LetDecl → String × Ty → Prop
  | .mk name _ value, b => b.1 = name ∧ OptionHas env π value b.2 ∧
    (aim.Typed → ∀ e ∈ value, ¬ e.Detaches b.2)

def FieldsHave (env : Blocks) (π : Path) : List LetDecl → List (String × Ty) → Prop
  | [], bs => bs = []
  | d :: ds, bs => ∃ b rest, bs = b :: rest ∧ d.Has env (.part 0 :: π) b ∧
    FieldsHave (env.extend [b]) (.part 1 :: π) ds rest

/-- The body of a function, at its place, obeys the rules, and does not come to its end where the
result must not be nil. -/
def DefDecl.Has (env : Blocks) (π : Path) : DefDecl → String × Ty → Prop
  | .mk name params _ _ body, b => b.1 = name ∧ params.Nodup ∧ ∃ (sig : Signature) (bs : _),
    b.2 = sig.toTy ∧ params.length = sig.params.length ∧
      BlockHas ((some π, params.zip (sig.params.map .prim)) :: env) π π (some (.prim sig.returns))
        body bs ∧
      (aim.Precise → sig.returns.Includes .nil ∨ BlockReturns body) ∧
        aim.KnowsBlock Γ π ((some π, params.zip (sig.params.map .prim)) :: env)
          (some (.prim sig.returns)) body

def MethodsHave (env : Blocks) (π : Path) : List DefDecl → List (String × Ty) → Prop
  | [], bs => bs = []
  | d :: ds, bs => ∃ b rest, bs = b :: rest ∧ d.Has env (.fn d.name :: π) b ∧
    MethodsHave env π ds rest

/-- A statement at a place in a block, which is at `β`, binds names with their types, inside a function
with the given result type or outside of all. -/
def Stmt.Has (env : Blocks) (β π : Path) (returns : Option Ty) : Stmt → List (String × Ty) → Prop
  | .letStmt decl, bs => ∃ b, bs = [b] ∧ decl.Has env π b
  | .defStmt decl, bs => ∃ b, bs = [b] ∧ decl.Has (env.extend [b]) (.fn decl.name :: β) b
  | .ifStmt condition thenBody elseBody, bs => bs = [] ∧
    condition.Has env (.part 0 :: π) (.prim .boolean) ∧
      (∃ as, BlockHas ((some (.part 1 :: π), []) :: env) (.part 1 :: π) (.part 1 :: π) returns
        thenBody as) ∧
      ∃ as, BlockHas ((some (.part 2 :: π), []) :: env) (.part 2 :: π) (.part 2 :: π) returns
        elseBody as
  | .forStmt name iterable body, bs => bs = [] ∧
    (∃ t, iterable.Has env (.part 0 :: π) t ∧ t.isSubtype Γ (.prim .iterable) = true) ∧
      ∃ as, BlockHas ((some (.part 1 :: π), [(name, .prim .integer)]) :: env) (.part 1 :: π)
        (.part 1 :: π) returns body as
  | .returnStmt value, bs => bs = [] ∧ ∃ t, returns = some t ∧ OptionHas env π value t
  | .exprStmt e, bs => bs = [] ∧ ∃ t, e.Has env (.part 0 :: π) t
  | .assignStmt (.var name) value, bs => bs = [] ∧ ∃ place t u, env.find name = some (place, t) ∧
    value.Has env (.part 0 :: π) u ∧ u.isSubtype Γ t = true ∧ (aim.Typed → ¬ value.Detaches t)
  | .assignStmt (.property receiver name) value, bs => bs = [] ∧ ∃ o t u,
    receiver.Has env (.part 0 :: π) (.object o) ∧ Γ.lookupOwn o name = some t ∧ ¬ t.IsFn ∧
      value.Has env (.part 1 :: π) u ∧ u.isSubtype Γ t = true
  | .assignStmt _ _, _ => False
  | .misplaced _, _ => False

def BlockHas (env : Blocks) (β π : Path) (returns : Option Ty) :
    List Stmt → List (String × Ty) → Prop
  | [], bs => bs = []
  | st :: sts, bs => ∃ as rest, bs = as ++ rest ∧ st.Has env β (.part 0 :: π) returns as ∧
    BlockHas (env.extend as) β (.part 1 :: π) returns sts rest

end

/-- A program binds names with their types in the scope that it runs in. -/
def Program.Has (env : Blocks) : Program → List (String × Ty) → Prop
  | .source stmts, bs => BlockHas Γ aim env [] [] none stmts bs
  | .stmt st, bs => st.Has Γ aim env [] [.part 0] none bs
  | .expr e, bs => bs = [] ∧ ∃ t, e.Has Γ aim env [.part 0, .part 0] t

end Rules

section Names

variable {Γ : TypeScopes} {aim : Aim} {env : Blocks} {β π : Path} {returns : Option Ty}

theorem Expr.Has.knows {e : Expr} {t : Ty} (h : e.Has Γ aim env π t) : aim.Knows π e t := by
  cases e with
  | misplaced kind => exact h.elim
  | _ => exact h.1

theorem LetDecl.Has.name_eq {d : LetDecl} {b : String × Ty} (h : d.Has Γ aim env π b) :
    b.1 = d.name := by
  obtain ⟨name, typeName, value⟩ := d
  exact h.1

theorem DefDecl.Has.name_eq {d : DefDecl} {b : String × Ty} (h : d.Has Γ aim env π b) :
    b.1 = d.name := by
  obtain ⟨name, params, annotations, returnType, body⟩ := d
  exact h.1

theorem Stmt.Has.names_eq {st : Stmt} {bs : List (String × Ty)} (h : st.Has Γ aim env β π returns bs) :
    bs.map Prod.fst = st.declared := by
  cases st with
  | letStmt decl =>
    obtain ⟨b, rfl, hb⟩ := h
    exact congrArg (fun n => [n]) hb.name_eq
  | defStmt decl =>
    obtain ⟨b, rfl, hb⟩ := h
    exact congrArg (fun n => [n]) hb.name_eq
  | assignStmt target value =>
    cases target with
    | var name | property receiver name =>
      obtain ⟨rfl, -⟩ := h
      rfl
    | _ => exact h.elim
  | misplaced kind => exact h.elim
  | _ =>
    obtain ⟨rfl, -⟩ := h
    rfl

theorem BlockHas.names_eq {sts : List Stmt} {bs : List (String × Ty)}
    (h : BlockHas Γ aim env β π returns sts bs) : bs.map Prod.fst = declaredAll sts := by
  induction sts generalizing env π bs with
  | nil =>
    obtain rfl : bs = [] := h
    rfl
  | cons st sts ih =>
    obtain ⟨as, rest, rfl, hst, hrest⟩ := h
    rw [List.map_append, hst.names_eq, ih hrest]
    rfl

theorem MethodsHave.names_eq {ds : List DefDecl} {bs : List (String × Ty)}
    (h : MethodsHave Γ aim env π ds bs) : bs.map Prod.fst = ds.map DefDecl.name := by
  induction ds generalizing bs with
  | nil =>
    obtain rfl : bs = [] := h
    rfl
  | cons d ds ih =>
    obtain ⟨b, rest, rfl, hd, hrest⟩ := h
    rw [List.map_cons, List.map_cons, hd.name_eq, ih hrest]

theorem DefDecl.Has.nodup {d : DefDecl} {b : String × Ty} (h : d.Has Γ aim env π b) :
    d.params.Nodup := by
  obtain ⟨name, params, annotations, returnType, body⟩ := d
  exact h.2.1

theorem DefDecl.Has.isFn {d : DefDecl} {b : String × Ty} (h : d.Has Γ aim env π b) : b.2.IsFn := by
  obtain ⟨name, params, annotations, returnType, body⟩ := d
  obtain ⟨-, -, sig, -, hb, -⟩ := h
  exact ⟨_, _, hb⟩

theorem MethodsHave.of_mem {ds : List DefDecl} {bs : List (String × Ty)}
    (h : MethodsHave Γ aim env π ds bs) {d : DefDecl} (hd : d ∈ ds) :
    ∃ b ∈ bs, d.Has Γ aim env (.fn d.name :: π) b := by
  induction ds generalizing bs with
  | nil => cases hd
  | cons d' ds ih =>
    obtain ⟨b, rest, rfl, hb, hrest⟩ := h
    rcases List.mem_cons.1 hd with rfl | hd
    · exact ⟨b, List.mem_cons_self .., hb⟩
    · obtain ⟨b', hb', hd'⟩ := ih hrest hd
      exact ⟨b', List.mem_cons_of_mem _ hb', hd'⟩

theorem FieldsHave.names_eq {ds : List LetDecl} {bs : List (String × Ty)}
    (h : FieldsHave Γ aim env π ds bs) : bs.map Prod.fst = ds.map LetDecl.name := by
  induction ds generalizing env π bs with
  | nil =>
    obtain rfl : bs = [] := h
    rfl
  | cons d ds ih =>
    obtain ⟨b, rest, rfl, hd, hrest⟩ := h
    rw [List.map_cons, List.map_cons, hd.name_eq, ih hrest]

theorem Program.Has.names_eq {p : Program} {bs : List (String × Ty)} (h : p.Has Γ aim env bs) :
    bs.map Prod.fst = p.declared := by
  cases p with
  | source stmts => exact BlockHas.names_eq h
  | stmt st => exact Stmt.Has.names_eq h
  | expr e =>
    obtain ⟨rfl, -⟩ := h
    rfl

end Names

end ObjectLang
