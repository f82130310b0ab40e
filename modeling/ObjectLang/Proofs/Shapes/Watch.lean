import ObjectLang.Proofs.Analysis.Steps
import ObjectLang.Proofs.Shapes.Sights

/-!
Analysis under observation: the same steps, with the scopes that they lead to and the objects that are
completed on the way. Observing changes nothing (`run_watch`), so what is proved of the sights is
proved of the analysis.
-/

namespace ObjectLang.Analysis

/-- Steps, and what can be seen of a run of them from a state on, however it ends. -/
structure Watched (α : Type) where
  run : AnalyzeM α
  sights : State → List (Sight Ty)

variable {α : Type}

instance : Monad Watched where
  pure a := ⟨pure a, fun _ => []⟩
  bind x f :=
    { run := x.run >>= fun a => (f a).run
      sights := fun st => x.sights st ++
        match x.run st with
        | .ok a st' => (f a).sights st'
        | .error _ _ => [] }

/-- A step, which leads to scopes whether it fails or not. -/
def step (x : AnalyzeM α) : Watched α := ⟨x, fun st => [.scopes (finalState (x st)).scopes]⟩

/-- The members of an object are all there. -/
def complete (members : ScopeId) (declared : List String) : Watched Unit :=
  ⟨pure (), fun _ => [.object members declared]⟩

/-- Makes a scope for the members of an object and puts them all there, given how its fields and the
bodies of its methods are analysed. -/
def watchMembers (name : Option String) (methods : List DefDecl)
    (fields : ScopeId → Watched (List (Typed.LetDecl Ty)))
    (bodies : ScopeId → List Signature → Watched (List (Typed.DefDecl Ty))) :
    Watched (ScopeId × List (Typed.LetDecl Ty) × List (Typed.DefDecl Ty)) := do
  let members ← step openRoot
  step (report (.analyzingObject name))
  let typedFields ← fields members
  let signatures ← step (declareMethods members methods)
  step (declareSelf members)
  let typedMethods ← bodies members signatures
  return (members, typedFields, typedMethods)

mutual

/-- Finds the type of an expression under observation. -/
def watchExpr (s : ScopeId) : Expr → Watched (Typed.Expr Ty)
  | .literal value => do
    let type ← step (MonadExcept.ofExcept (literalType value))
    return .literal value (.prim type)
  | .group inner => do
    let inner ← watchExpr s inner
    return .group inner inner.type
  | .binary symbol left right => do
    let left ← watchExpr s left
    let right ← watchExpr s right
    match Operator.ofSymbol? symbol with
    | some op => return .binary op left right (← step (binaryType op left.type right.type))
    | none => step (throw (.defect (.unknownOperator symbol)))
  | .var name => do
    match ← step (lookup s name) with
    | some type => return .var name type
    | none => step (throw (.undefinedName name))
  | .property receiver name => do
    let receiver ← watchExpr s receiver
    return .property receiver name (← step (memberType receiver.type name))
  | .call name args => do
    match ← step (lookup s name) with
    | some type =>
      let (params, returns) ← step (calleeType name type)
      step (requireArity name params.length args.length)
      return .call name (← watchArgs s args params) returns
    | none => step (throw (.undefinedFunction name))
  | .methodCall receiver name args => do
    let receiver ← watchExpr s receiver
    let (params, returns) ← step (calleeType name (← step (memberType receiver.type name)))
    step (requireArity name params.length args.length)
    return .methodCall receiver name (← watchArgs s args params) returns
  | .object name fields methods => do
    step (requireObjectName name)
    let (members, typedFields, typedMethods) ← watchMembers name methods
      (fun members => watchFields members fields)
      fun members signatures => watchMethods members methods signatures
    complete members (fields.map LetDecl.name ++ methods.map DefDecl.name)
    return .object name typedFields typedMethods (.object members)
  | .misplaced kind => step (throw (.defect (.unhandledExpression kind)))

def watchArgs (s : ScopeId) : List Expr → List Ty → Watched (List (Typed.Expr Ty))
  | e :: es, param :: params => do
    let e ← watchExpr s e
    step (requireSubtype e.type param)
    return e :: (← watchArgs s es params)
  | _, _ => return []

def watchOption (s : ScopeId) : Option Expr → Watched (Option (Typed.Expr Ty))
  | some e => return some (← watchExpr s e)
  | none => return none

def watchLet (s : ScopeId) : LetDecl → Watched (Typed.LetDecl Ty)
  | .mk name typeName value => do
    step (requireFresh s name)
    let declared ← step (typeName.mapM fun typeName => MonadExcept.ofExcept (resolve typeName))
    let value ← watchOption s value
    let type := (declared.map Ty.prim <|> value.map Typed.Expr.type).getD (.prim .any)
    match value with
    | some value => step (requireSubtype value.type type)
    | none => pure ()
    step (define s name type)
    return .mk name type value

def watchFields (members : ScopeId) : List LetDecl → Watched (List (Typed.LetDecl Ty))
  | [] => return []
  | d :: ds => return (← watchLet members d) :: (← watchFields members ds)

def watchDef (parent : ScopeId) : DefDecl → Signature → Watched (Typed.DefDecl Ty)
  | .mk name params _ _ body, signature => do
    let typed := params.zip (signature.params.map Ty.prim)
    let s ← step (openChild parent (Bindings.ofList typed))
    let body ← watchBlock s (some (.prim signature.returns)) body
    return .mk name typed (.prim signature.returns) body

def watchMethods (members : ScopeId) :
    List DefDecl → List Signature → Watched (List (Typed.DefDecl Ty))
  | d :: ds, signature :: signatures =>
    return (← watchDef members d signature) :: (← watchMethods members ds signatures)
  | _, _ => return []

/-- Analyses a statement under observation. -/
def watchStmt (s : ScopeId) (returns : Option Ty) : Stmt → Watched (Typed.Stmt Ty)
  | .letStmt decl => return .letStmt (← watchLet s decl)
  | .defStmt decl => do
    let signature ← step (declareFunction s decl)
    return .defStmt (← watchDef s decl signature)
  | .ifStmt condition thenBody elseBody => do
    let condition ← watchExpr s condition
    step (requireBoolean condition.type)
    let thenBody ← watchBlock (← step (openChild s ∅)) returns thenBody
    let elseBody ← watchBlock (← step (openChild s ∅)) returns elseBody
    return .ifStmt condition thenBody elseBody
  | .forStmt name iterable body => do
    let iterable ← watchExpr s iterable
    step (requireSubtype iterable.type (.prim .iterable))
    let inner ← step (openChild s (Bindings.singleton name (.prim .integer)))
    let body ← watchBlock inner returns body
    return .forStmt name (.prim .integer) iterable body
  | .returnStmt value => do
    match returns with
    | some returns =>
      let value ← watchOption s value
      step (requireSubtype ((value.map Typed.Expr.type).getD (.prim .nil)) returns)
      return .returnStmt value
    | none => step (throw .returnOutside)
  | .exprStmt e => return .exprStmt (← watchExpr s e)
  | .assignStmt (.var name) value => do
    match ← step (lookup s name) with
    | some type =>
      let value ← watchExpr s value
      step (requireSubtype value.type type)
      return .assignVar name type value
    | none => step (throw (.undefinedName name))
  | .assignStmt (.property receiver name) value => do
    let receiver ← watchExpr s receiver
    let type ← step (memberType receiver.type name)
    if let .fn .. := type then step (throw (.assignedMethod name))
    let value ← watchExpr s value
    step (requireSubtype value.type type)
    return .assignProperty receiver name type value
  | .assignStmt target _ => step (throw (.invalidTarget target.kind))
  | .misplaced kind => step (throw (.defect (.unhandledStatement kind)))

def watchBlock (s : ScopeId) (returns : Option Ty) : List Stmt → Watched (List (Typed.Stmt Ty))
  | [] => return []
  | st :: sts => return (← watchStmt s returns st) :: (← watchBlock s returns sts)

end

/-- Analyses a program under observation. -/
def watch (s : ScopeId) : Program → Watched (Typed.Program Ty)
  | .source stmts => return .source (← watchBlock s none stmts)
  | .stmt st => return .stmt (← watchStmt s none st)
  | .expr e => return .expr (← watchExpr s e)

section Run

@[simp] theorem run_pure (a : α) : (pure a : Watched α).run = pure a := rfl

@[simp] theorem run_bind {β : Type} (x : Watched α) (f : α → Watched β) :
    (x >>= f).run = x.run >>= fun a => (f a).run := rfl

@[simp] theorem run_step (x : AnalyzeM α) : (step x).run = x := rfl

@[simp] theorem run_complete (members : ScopeId) (declared : List String) :
    (complete members declared).run = pure () := rfl

end Run

mutual

theorem run_watchExpr (s : ScopeId) (e : Expr) : (watchExpr s e).run = analyzeExpr s e := by
  cases e with
  | literal value => rfl
  | group inner => simp only [watchExpr, analyzeExpr, run_bind, run_pure, run_watchExpr s inner]
  | binary symbol left right =>
    simp only [watchExpr, analyzeExpr, run_bind, run_watchExpr s left, run_watchExpr s right]
    refine bind_congr fun _ => bind_congr fun _ => ?_
    cases Operator.ofSymbol? symbol <;> rfl
  | var name =>
    simp only [watchExpr, analyzeExpr, run_bind, run_step]
    refine bind_congr fun type => ?_
    cases type <;> rfl
  | property receiver name =>
    simp only [watchExpr, analyzeExpr, run_bind, run_step, run_pure, run_watchExpr s receiver]
  | call name args =>
    simp only [watchExpr, analyzeExpr, run_bind, run_step]
    refine bind_congr fun type => ?_
    cases type with
    | none => rfl
    | some type =>
      refine bind_congr fun callee => bind_congr fun _ => ?_
      simp only [run_bind, run_pure, run_watchArgs s args]
  | methodCall receiver name args =>
    simp only [watchExpr, analyzeExpr, run_bind, run_step, run_watchExpr s receiver]
    refine bind_congr fun _ => bind_congr fun _ => bind_congr fun callee => bind_congr fun _ => ?_
    simp only [run_pure, run_watchArgs s args]
  | object name fields methods =>
    simp only [watchExpr, watchMembers, analyzeExpr, run_bind, run_step, run_pure, run_complete,
      bind_assoc, pure_bind]
    refine bind_congr fun _ => bind_congr fun members => bind_congr fun _ => ?_
    simp only [run_watchFields members fields]
    refine bind_congr fun _ => bind_congr fun signatures => bind_congr fun _ => ?_
    simp only [run_watchMethods members methods signatures]
  | misplaced kind => rfl

theorem run_watchArgs (s : ScopeId) (es : List Expr) (params : List Ty) :
    (watchArgs s es params).run = analyzeArgs s es params := by
  match es, params with
  | [], _ => rfl
  | _ :: _, [] => rfl
  | e :: es, param :: params =>
    simp only [watchArgs, analyzeArgs, run_bind, run_step, run_pure, run_watchExpr s e,
      run_watchArgs s es params]

theorem run_watchOption (s : ScopeId) (value : Option Expr) :
    (watchOption s value).run = analyzeOption s value := by
  match value with
  | none => rfl
  | some e => simp only [watchOption, analyzeOption, run_bind, run_pure, run_watchExpr s e]

theorem run_watchLet (s : ScopeId) (d : LetDecl) : (watchLet s d).run = analyzeLet s d := by
  match d with
  | .mk name typeName value =>
    simp only [watchLet, analyzeLet, run_bind, run_step, run_watchOption s value]
    refine bind_congr fun _ => bind_congr fun _ => bind_congr fun value => ?_
    cases value <;> rfl

theorem run_watchFields (members : ScopeId) (ds : List LetDecl) :
    (watchFields members ds).run = analyzeFields members ds := by
  match ds with
  | [] => rfl
  | d :: ds =>
    simp only [watchFields, analyzeFields, run_bind, run_pure, run_watchLet members d,
      run_watchFields members ds]

theorem run_watchDef (parent : ScopeId) (d : DefDecl) (sig : Signature) :
    (watchDef parent d sig).run = analyzeDef parent d sig := by
  match d with
  | .mk name params _ _ body =>
    simp only [watchDef, analyzeDef, run_bind, run_step, run_pure]
    refine bind_congr fun s => ?_
    rw [run_watchBlock s _ body]

theorem run_watchMethods (members : ScopeId) (ds : List DefDecl) (sigs : List Signature) :
    (watchMethods members ds sigs).run = analyzeMethods members ds sigs := by
  match ds, sigs with
  | [], _ => rfl
  | _ :: _, [] => rfl
  | d :: ds, sig :: sigs =>
    simp only [watchMethods, analyzeMethods, run_bind, run_pure, run_watchDef members d sig,
      run_watchMethods members ds sigs]

theorem run_watchStmt (s : ScopeId) (returns : Option Ty) (stmt : Stmt) :
    (watchStmt s returns stmt).run = analyzeStmt s returns stmt := by
  cases stmt with
  | letStmt decl => simp only [watchStmt, analyzeStmt, run_bind, run_pure, run_watchLet s decl]
  | defStmt decl =>
    simp only [watchStmt, analyzeStmt, run_bind, run_step, run_pure]
    refine bind_congr fun sig => ?_
    rw [run_watchDef s decl sig]
  | ifStmt condition thenBody elseBody =>
    simp only [watchStmt, analyzeStmt, run_bind, run_step, run_pure, run_watchExpr s condition]
    refine bind_congr fun _ => bind_congr fun _ => bind_congr fun inner => ?_
    rw [run_watchBlock inner returns thenBody]
    refine bind_congr fun _ => bind_congr fun inner => ?_
    rw [run_watchBlock inner returns elseBody]
  | forStmt name iterable body =>
    simp only [watchStmt, analyzeStmt, run_bind, run_step, run_pure, run_watchExpr s iterable]
    refine bind_congr fun _ => bind_congr fun _ => bind_congr fun inner => ?_
    rw [run_watchBlock inner returns body]
  | returnStmt value =>
    cases returns with
    | none => rfl
    | some returns =>
      simp only [watchStmt, analyzeStmt, run_bind, run_step, run_pure, run_watchOption s value]
  | exprStmt e => simp only [watchStmt, analyzeStmt, run_bind, run_pure, run_watchExpr s e]
  | assignStmt target value =>
    cases target with
    | var name =>
      simp only [watchStmt, analyzeStmt, run_bind, run_step]
      refine bind_congr fun type => ?_
      cases type with
      | none => rfl
      | some type => simp only [run_bind, run_step, run_pure, run_watchExpr s value]
    | property receiver name =>
      simp only [watchStmt, analyzeStmt, run_bind, run_step, run_watchExpr s receiver]
      refine bind_congr fun _ => bind_congr fun type => ?_
      cases type <;> simp only [run_bind, run_step, run_pure, run_watchExpr s value]
    | _ => rfl
  | misplaced kind => rfl

theorem run_watchBlock (s : ScopeId) (returns : Option Ty) (stmts : List Stmt) :
    (watchBlock s returns stmts).run = analyzeBlock s returns stmts := by
  match stmts with
  | [] => rfl
  | stmt :: stmts =>
    simp only [watchBlock, analyzeBlock, run_bind, run_pure, run_watchStmt s returns stmt,
      run_watchBlock s returns stmts]

end

/-- Observing an analysis does not change it. -/
theorem run_watch (s : ScopeId) (p : Program) : (watch s p).run = analyze s p := by
  cases p with
  | source stmts => simp only [watch, analyze, run_bind, run_pure, run_watchBlock]
  | stmt stmt => simp only [watch, analyze, run_bind, run_pure, run_watchStmt]
  | expr e => simp only [watch, analyze, run_bind, run_pure, run_watchExpr]

end ObjectLang.Analysis
