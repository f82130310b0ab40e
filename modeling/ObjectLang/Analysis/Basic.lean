import ObjectLang.Analysis.Error
import ObjectLang.Trace
import ObjectLang.Types.Subtype

/-!
The steps that analysis is made of. Each reads or extends the scopes of types, or stops with an
error; scopes made and names defined before an error stay.
-/

namespace ObjectLang

namespace Analysis

/-- What analysis builds up: the types of the names in every scope, and the log. -/
structure State where
  scopes : TypeScopes
  trace : Array Event

end Analysis

/-- Steps that can fail. What they built up before stays. -/
abbrev AnalyzeM := EStateM AnalysisError Analysis.State

namespace Analysis

def report (event : Event) : AnalyzeM Unit :=
  modify fun st => { st with trace := st.trace.push event }

/-- Adds a scope inside another and gives its number. -/
def openChild (parent : ScopeId) (own : Bindings Ty) : AnalyzeM ScopeId :=
  modifyGet fun st => (st.scopes.size, { st with scopes := st.scopes.addChild parent own })

/-- Adds a scope that sees nothing outside and gives its number. -/
def openRoot : AnalyzeM ScopeId :=
  modifyGet fun st => (st.scopes.size, { st with scopes := st.scopes.addRoot ∅ })

def define (s : ScopeId) (name : String) (type : Ty) : AnalyzeM Unit := do
  if (← get).scopes.containsOwn s name then throw (.scope (.alreadyDefined name))
  modify fun st => { st with scopes := st.scopes.insert s name type }

def lookup (s : ScopeId) (name : String) : AnalyzeM (Option Ty) :=
  return (← get).scopes.lookup s name

/-- The name can still be defined in the scope. -/
def requireFresh (s : ScopeId) (name : String) : AnalyzeM Unit := do
  if (← get).scopes.containsOwn s name then throw (.alreadyDefined name)

/-- The types are equal as the scopes stand. -/
def sameType (a b : Ty) : AnalyzeM Bool := return a.equiv (← get).scopes b

def requireSubtype (actual expected : Ty) : AnalyzeM Unit := do
  unless actual.isSubtype (← get).scopes expected do throw (.notSubtype actual expected)

def requireBoolean (actual : Ty) : AnalyzeM Unit := do
  unless ← sameType actual (.prim .boolean) do throw (.conditionNotBoolean actual)

/-- The type that an annotation names. -/
def resolve (name : String) : Except AnalysisError Prim :=
  match Prim.ofName? name with
  | some p => .ok p
  | none => .error (.unknownType name)

/-- The type that an annotation names, and `any` where there is none. -/
def resolveOr : Option String → Except AnalysisError Prim
  | some name => resolve name
  | none => .ok .any

/-- The types of the parameters of a function, none of which may repeat an earlier one.
Annotations are used up from the left; where they end, the parameters have none. -/
def paramTypes (function : String) (seen : List String) :
    List String → List (Option String) → Except AnalysisError (List Prim)
  | [], _ => .ok []
  | param :: params, annotations => do
    if param ∈ seen then throw (.duplicateParameter param function)
    let type ← resolveOr annotations.head?.join
    let types ← paramTypes function (param :: seen) params annotations.tail
    return type :: types

/-- The signature that a definition declares. -/
def signature : DefDecl → Except AnalysisError Signature
  | .mk name params annotations returnType _ => do
    let types ← paramTypes name [] params annotations
    let returns ← resolveOr returnType
    return ⟨types, returns⟩

/-- The type of what a literal holds. Characters, functions and lists have none. -/
def literalType : Literal → Except AnalysisError Prim
  | .nil => .ok .nil
  | .boolean _ => .ok .boolean
  | .integer _ => .ok .integer
  | .decimal _ => .ok .decimal
  | .string _ => .ok .string
  | .character _ => .error (.defect (.unexpectedLiteral "Char"))
  | .function _ => .error (.defect (.unexpectedLiteral "Function"))
  | .list _ => .error (.defect (.unexpectedLiteral "list"))

/-- The type of a member of an object. -/
def memberType (receiver : Ty) (name : String) : AnalyzeM Ty := do
  match receiver with
  | .object members =>
    match (← get).scopes.lookupOwn members name with
    | some type => return type
    | none => throw (.undefinedMember name receiver)
  | _ => throw (.receiverNotObject receiver)

/-- The parameter types and the result type of what is called. -/
def calleeType (name : String) : Ty → AnalyzeM (List Ty × Ty)
  | .fn params returns => return (params, returns)
  | type => throw (.notFunction name type)

def requireArity (name : String) (expected given : Nat) : AnalyzeM Unit := do
  unless given = expected do throw (.arityMismatch name expected given)

/-- Both operands are integers, or both are decimals. -/
def bothNumeric (left right : Ty) : AnalyzeM Bool := do
  if ← sameType left (.prim .integer) then sameType left right
  else if ← sameType left (.prim .decimal) then sameType left right
  else return false

/-- The type of an expression with the given operator and types of operands. -/
def binaryType (op : Operator) (left right : Ty) : AnalyzeM Ty := do
  match op with
  | .and | .or =>
    requireSubtype left (.prim .boolean)
    requireSubtype right (.prim .boolean)
    return .prim .boolean
  | .add =>
    if ← sameType left (.prim .string) then return .prim .string
    else if ← sameType right (.prim .string) then return .prim .string
    else if ← bothNumeric left right then return left
    else throw (.operandMismatch op left right)
  | .sub | .mul | .div =>
    if ← bothNumeric left right then return left
    else throw (.operandMismatch op left right)
  | .eq | .ne =>
    requireSubtype left (.prim .equatable)
    requireSubtype right (.prim .equatable)
    return .prim .boolean
  | .lt | .le | .gt | .ge =>
    requireSubtype left (.prim .comparable)
    requireSubtype right (.prim .comparable)
    if ← sameType left right then return .prim .boolean
    else throw (.operandMismatch op left right)

/-- An object may not be called like a type. -/
def requireObjectName : Option String → AnalyzeM Unit
  | some name => do if (Prim.ofName? name).isSome then throw (.reservedObjectName name)
  | none => return

/-- Gives every method of an object its type, before any method body is looked at. -/
def declareMethods (members : ScopeId) : List DefDecl → AnalyzeM (List Signature)
  | [] => return []
  | d :: ds => do
    if (← get).scopes.containsOwn members d.name then throw (.memberAlreadyDefined d.name)
    let sig ← MonadExcept.ofExcept (signature d)
    define members d.name sig.toTy
    return sig :: (← declareMethods members ds)

/-- Gives an object type its reference to itself, which no field or method may have taken. -/
def declareSelf (members : ScopeId) : AnalyzeM Unit := do
  if (← get).scopes.containsOwn members selfName then throw .reservedSelf
  define members selfName (.object members)

/-- Declares a function in its scope, before its body is looked at. -/
def declareFunction (s : ScopeId) (d : DefDecl) : AnalyzeM Signature := do
  requireFresh s d.name
  let sig ← MonadExcept.ofExcept (signature d)
  define s d.name sig.toTy
  report (.analyzingFunction d.name sig)
  return sig

end Analysis

end ObjectLang
