import ObjectLang.Evaluation.Error
import ObjectLang.Trace
import ObjectLang.Values.Display
import ObjectLang.Values.Equality

/-!
The steps that evaluation is made of. Each reads or changes the scopes of values, writes a line or
reports an event, or stops with a fault; what was done before a fault stays done.
-/

namespace ObjectLang

/-- What evaluation changes: the values of the names in every scope, the lines written, and the
log. -/
structure Machine where
  scopes : ValueScopes
  output : Array String
  trace : Array Event

/-- All that was written. Every line is ended. -/
def Machine.text (m : Machine) : String := m.output.foldl (fun text line => text ++ line ++ "\n") ""

/-- Steps that can fail. What they changed before stays changed. -/
abbrev EvalM := EStateM Fault Machine

/-- How a statement ends: with its value, or with a value on its way out of the enclosing
function. -/
inductive Completion where
  | normal (v : Value)
  | returning (v : Value)

namespace Evaluation

def fail {α : Type} (e : EvalError) : EvalM α := throw (.error e)

def report (event : Event) : EvalM Unit :=
  modify fun m => { m with trace := m.trace.push event }

def writeLine (line : String) : EvalM Unit :=
  modify fun m => { m with output := m.output.push line }

/-- Adds a scope inside another and gives its number. -/
def openChild (parent : ScopeId) (own : Bindings Value) : EvalM ScopeId :=
  modifyGet fun m => (m.scopes.size, { m with scopes := m.scopes.addChild parent own })

/-- Adds a scope that sees nothing outside and gives its number. -/
def openRoot : EvalM ScopeId :=
  modifyGet fun m => (m.scopes.size, { m with scopes := m.scopes.addRoot ∅ })

/-- Binds a new name. -/
def define (s : ScopeId) (name : String) (v : Value) : EvalM Unit := do
  if (← get).scopes.containsOwn s name then fail (.scope (.alreadyDefined name))
  modify fun m => { m with scopes := m.scopes.insert s name v }

/-- Rebinds a name where it is bound nearest. -/
def assign (s : ScopeId) (name : String) (v : Value) : EvalM Unit := do
  match (← get).scopes.owner? s name with
  | some t => modify fun m => { m with scopes := m.scopes.insert t name v }
  | none => fail (.scope (.notDefined name))

def lookup (s : ScopeId) (name : String) : EvalM (Option Value) :=
  return (← get).scopes.lookup s name

/-- The name can still be defined in the scope. -/
def requireFresh (s : ScopeId) (name : String) : EvalM Unit := do
  if (← get).scopes.containsOwn s name then fail (.alreadyDefined name)

/-- The name is bound in the scope or around it. -/
def requireBound (s : ScopeId) (name : String) : EvalM Unit := do
  unless (← get).scopes.contains s name do fail (.undefinedName name)

/-- The name is a member of the object with the given members. -/
def requireMember (members : ScopeId) (name : String) : EvalM Unit := do
  unless (← get).scopes.containsOwn members name do fail (.undefinedMember name)

/-- The value of a member. -/
def member (members : ScopeId) (name : String) : EvalM Value := do
  match (← get).scopes.lookupOwn members name with
  | some v => return v
  | none => fail (.undefinedMember name)

/-- The members of a value that must be an object. -/
def requireObject : Value → EvalM ScopeId
  | .object _ members => return members
  | v => fail (.receiverNotObject v.kind)

def requireFunction (name : String) : Value → EvalM Callable
  | .function f => return f
  | v => fail (.notFunction name v.kind)

def requireList : Value → EvalM (List Value)
  | .list items => return items
  | v => fail (.notList v.kind)

def requireCondition : Value → EvalM Bool
  | .boolean b => return b
  | v => fail (.conditionNotBoolean v.kind)

def requireOperand (op : Operator) : Value → EvalM Bool
  | .boolean b => return b
  | v => fail (.operandNotBoolean op v.kind)

/-- The text of a value, which must have an end. -/
def display (v : Value) : EvalM String := do
  match v.display? (← get).scopes with
  | some text => return text
  | none => throw .endless

/-- Whether two values are equal, if that can be found out. -/
def equal (a b : Value) : EvalM Bool := do
  match a.equal? (← get).scopes b with
  | some answer => return answer
  | none => throw .endless

end Evaluation

end ObjectLang
