import ObjectLang.Analysis.Rules
import ObjectLang.Evaluation.Rules
import ObjectLang.Prelude

/-!
Sessions run one program after another. Both passes work in scopes that last as long as the session:
what a program defines is there for the next one, also when it stops half way.
-/

namespace ObjectLang

/-- Where a session starts: inside the outermost scopes, directly in them, or in empty ones. -/
inductive Placement where
  | child
  | root
  | empty
  deriving DecidableEq, Repr

/-- The scopes of both passes, the current scope of each, and the log of both. -/
structure Session where
  types : TypeScopes
  values : ValueScopes
  typeScope : ScopeId
  valueScope : ScopeId
  log : Array Event

/-- What came of an evaluation, and what it wrote. -/
structure Outcome where
  result : Except Fault Value
  output : String

namespace Session

/-- A session without any scopes. -/
def blank : Session := ⟨∅, ∅, 0, 0, #[]⟩

/-- Makes the scopes that analysis starts from. -/
def openTypes (placement : Placement) (fixtures : Bool) (σ : Session) : Session :=
  match placement with
  | .child =>
    let prelude := Prelude.types fixtures
    { σ with
      types := prelude.addChild Prelude.root ∅
      typeScope := prelude.size
      log := σ.log.push (.builtTypes fixtures) }
  | .root =>
    { σ with
      types := Prelude.types fixtures
      typeScope := Prelude.root
      log := σ.log.push (.builtTypes fixtures) }
  | .empty => { σ with types := (∅ : TypeScopes).addRoot ∅, typeScope := 0 }

/-- Makes the scopes that evaluation starts from. -/
def openValues (placement : Placement) (fixtures : Bool) (σ : Session) : Session :=
  match placement with
  | .child =>
    let prelude := Prelude.values fixtures
    { σ with
      values := prelude.addChild Prelude.root ∅
      valueScope := prelude.size
      log := σ.log.push (.builtValues fixtures) }
  | .root =>
    { σ with
      values := Prelude.values fixtures
      valueScope := Prelude.root
      log := σ.log.push (.builtValues fixtures) }
  | .empty => { σ with values := (∅ : ValueScopes).addRoot ∅, valueScope := 0 }

/-- A new session. -/
def start (placement : Placement) (fixtures : Bool) : Session :=
  (blank.openTypes placement fixtures).openValues placement fixtures

/-- Analyses a program in the current scope of types. -/
def analyze (σ : Session) (p : Program) : Except AnalysisError (Typed.Program Ty) × Session :=
  match Analysis.analyze σ.typeScope p ⟨σ.types, σ.log⟩ with
  | .ok typed st => (.ok typed, { σ with types := st.scopes, log := st.trace })
  | .error e st => (.error e, { σ with types := st.scopes, log := st.trace })

/-- Evaluates a program in the current scope of values. -/
def evaluate (depth : Nat) (σ : Session) (p : Program) : Outcome × Session :=
  match Evaluation.evaluate depth σ.valueScope p ⟨σ.values, #[], σ.log⟩ with
  | .ok v m => (⟨.ok v, m.text⟩, { σ with values := m.scopes, log := m.trace })
  | .error e m => (⟨.error e, m.text⟩, { σ with values := m.scopes, log := m.trace })

/-- Goes on in new scopes inside the current ones. -/
def push (σ : Session) : Session :=
  { σ with
    types := σ.types.addChild σ.typeScope ∅
    values := σ.values.addChild σ.valueScope ∅
    typeScope := σ.types.size
    valueScope := σ.values.size }

/-- Goes back to the scopes around the current ones. -/
def pop (σ : Session) : Session :=
  { σ with
    typeScope := (σ.types.parent? σ.typeScope).getD σ.typeScope
    valueScope := (σ.values.parent? σ.valueScope).getD σ.valueScope }

/-- The names that the current scope of types has itself. -/
def typeNames (σ : Session) : List String := σ.types.names σ.typeScope

/-- The names that the current scope of values has itself. -/
def valueNames (σ : Session) : List String := σ.values.names σ.valueScope

end Session

end ObjectLang
