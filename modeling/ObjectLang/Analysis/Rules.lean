import ObjectLang.Analysis.Basic
import ObjectLang.Typed.Tree

/-!
Analysis of whole programs: every name is resolved, every expression gets its type, and the first
violation of a rule ends the pass. Blocks and bodies of functions are looked at in scopes of their
own inside the current one; the members of an object see nothing around it.
-/

namespace ObjectLang.Analysis

mutual

/-- Finds the type of an expression in a scope. -/
def analyzeExpr (s : ScopeId) : Expr → AnalyzeM (Typed.Expr Ty)
  | .literal value => do
    let type ← MonadExcept.ofExcept (literalType value)
    return .literal value (.prim type)
  | .group inner => do
    let inner ← analyzeExpr s inner
    return .group inner inner.type
  | .binary symbol left right => do
    let left ← analyzeExpr s left
    let right ← analyzeExpr s right
    match Operator.ofSymbol? symbol with
    | some op => return .binary op left right (← binaryType op left.type right.type)
    | none => throw (.defect (.unknownOperator symbol))
  | .var name => do
    match ← lookup s name with
    | some type => return .var name type
    | none => throw (.undefinedName name)
  | .property receiver name => do
    let receiver ← analyzeExpr s receiver
    return .property receiver name (← memberType receiver.type name)
  | .call name args => do
    match ← lookup s name with
    | some type =>
      let (params, returns) ← calleeType name type
      requireArity name params.length args.length
      return .call name (← analyzeArgs s args params) returns
    | none => throw (.undefinedFunction name)
  | .methodCall receiver name args => do
    let receiver ← analyzeExpr s receiver
    let (params, returns) ← calleeType name (← memberType receiver.type name)
    requireArity name params.length args.length
    return .methodCall receiver name (← analyzeArgs s args params) returns
  | .object name fields methods => do
    requireObjectName name
    let members ← openRoot
    report (.analyzingObject name)
    let fields ← analyzeFields members fields
    let signatures ← declareMethods members methods
    declareSelf members
    let methods ← analyzeMethods members methods signatures
    return .object name fields methods (.object members)
  | .misplaced kind => throw (.defect (.unhandledExpression kind))

/-- Checks arguments against the types of the parameters, from left to right. -/
def analyzeArgs (s : ScopeId) : List Expr → List Ty → AnalyzeM (List (Typed.Expr Ty))
  | e :: es, param :: params => do
    let e ← analyzeExpr s e
    requireSubtype e.type param
    return e :: (← analyzeArgs s es params)
  | _, _ => return []

def analyzeOption (s : ScopeId) : Option Expr → AnalyzeM (Option (Typed.Expr Ty))
  | some e => return some (← analyzeExpr s e)
  | none => return none

/-- Defines a variable with its annotated type, or else with that of its value. -/
def analyzeLet (s : ScopeId) : LetDecl → AnalyzeM (Typed.LetDecl Ty)
  | .mk name typeName value => do
    requireFresh s name
    let declared ← typeName.mapM fun typeName => MonadExcept.ofExcept (resolve typeName)
    let value ← analyzeOption s value
    let type := (declared.map Ty.prim <|> value.map Typed.Expr.type).getD (.prim .any)
    match value with
    | some value => requireSubtype value.type type
    | none => pure ()
    define s name type
    return .mk name type value

def analyzeFields (members : ScopeId) : List LetDecl → AnalyzeM (List (Typed.LetDecl Ty))
  | [] => return []
  | d :: ds => return (← analyzeLet members d) :: (← analyzeFields members ds)

/-- Looks at the body of a definition whose signature is known, in a scope of its parameters. -/
def analyzeDef (parent : ScopeId) : DefDecl → Signature → AnalyzeM (Typed.DefDecl Ty)
  | .mk name params _ _ body, signature => do
    let typed := params.zip (signature.params.map Ty.prim)
    let s ← openChild parent (Bindings.ofList typed)
    let body ← analyzeBlock s (some (.prim signature.returns)) body
    return .mk name typed (.prim signature.returns) body

def analyzeMethods (members : ScopeId) :
    List DefDecl → List Signature → AnalyzeM (List (Typed.DefDecl Ty))
  | d :: ds, signature :: signatures =>
    return (← analyzeDef members d signature) :: (← analyzeMethods members ds signatures)
  | _, _ => return []

/-- Analyses a statement inside a function with the given result type, or outside of all. -/
def analyzeStmt (s : ScopeId) (returns : Option Ty) : Stmt → AnalyzeM (Typed.Stmt Ty)
  | .letStmt decl => return .letStmt (← analyzeLet s decl)
  | .defStmt decl => do
    let signature ← declareFunction s decl
    return .defStmt (← analyzeDef s decl signature)
  | .ifStmt condition thenBody elseBody => do
    let condition ← analyzeExpr s condition
    requireBoolean condition.type
    let thenBody ← analyzeBlock (← openChild s ∅) returns thenBody
    let elseBody ← analyzeBlock (← openChild s ∅) returns elseBody
    return .ifStmt condition thenBody elseBody
  | .forStmt name iterable body => do
    let iterable ← analyzeExpr s iterable
    requireSubtype iterable.type (.prim .iterable)
    let inner ← openChild s (Bindings.singleton name (.prim .integer))
    let body ← analyzeBlock inner returns body
    return .forStmt name (.prim .integer) iterable body
  | .returnStmt value => do
    match returns with
    | some returns =>
      let value ← analyzeOption s value
      requireSubtype ((value.map Typed.Expr.type).getD (.prim .nil)) returns
      return .returnStmt value
    | none => throw .returnOutside
  | .exprStmt e => return .exprStmt (← analyzeExpr s e)
  | .assignStmt (.var name) value => do
    match ← lookup s name with
    | some type =>
      let value ← analyzeExpr s value
      requireSubtype value.type type
      return .assignVar name type value
    | none => throw (.undefinedName name)
  | .assignStmt (.property receiver name) value => do
    let receiver ← analyzeExpr s receiver
    let type ← memberType receiver.type name
    if let .fn .. := type then throw (.assignedMethod name)
    let value ← analyzeExpr s value
    requireSubtype value.type type
    return .assignProperty receiver name type value
  | .assignStmt target _ => throw (.invalidTarget target.kind)
  | .misplaced kind => throw (.defect (.unhandledStatement kind))

def analyzeBlock (s : ScopeId) (returns : Option Ty) : List Stmt → AnalyzeM (List (Typed.Stmt Ty))
  | [] => return []
  | st :: sts => return (← analyzeStmt s returns st) :: (← analyzeBlock s returns sts)

end

/-- Analyses a program in a scope, outside of all functions. -/
def analyze (s : ScopeId) : Program → AnalyzeM (Typed.Program Ty)
  | .source stmts => return .source (← analyzeBlock s none stmts)
  | .stmt st => return .stmt (← analyzeStmt s none st)
  | .expr e => return .expr (← analyzeExpr s e)

end ObjectLang.Analysis
