import ObjectLang.Evaluation.Native
import ObjectLang.Tree.Basic

/-!
Blocks, loops and calls, given how a single statement runs. A RETURN ends the blocks and loops
that it stands in, one after another, up to the nearest call.
-/

namespace ObjectLang.Evaluation

/-- Runs statements in order. A block has the value of its last statement, `last` when it has
none. -/
def runBlock (exec : Stmt → EvalM Completion) (last : Value) : List Stmt → EvalM Completion
  | [] => return .normal last
  | st :: sts => do
    match ← exec st with
    | .normal v => runBlock exec v sts
    | .returning v => return .returning v

/-- Runs a loop body for each item in order. -/
def runLoop (body : Value → EvalM Completion) : List Value → EvalM Completion
  | [] => return .normal .nil
  | item :: items => do
    match ← body item with
    | .normal _ => runLoop body items
    | .returning v => return .returning v

/-- Evaluates expressions in order. -/
def evalArgs (eval : Expr → EvalM Value) : List Expr → EvalM (List Value)
  | [] => return []
  | e :: es => return (← eval e) :: (← evalArgs eval es)

/-- The value of an expression, and nil where there is none. -/
def evalOption (eval : Expr → EvalM Value) : Option Expr → EvalM Value
  | some e => eval e
  | none => return .nil

/-- Defines a variable, whose name must be new before its value is found. -/
def execLet (eval : Expr → EvalM Value) (s : ScopeId) : LetDecl → EvalM Value
  | .mk name _ value => do
    requireFresh s name
    let v ← evalOption eval value
    define s name v
    return v

/-- Runs the fields of an object as definitions among its members. -/
def execFields (eval : Expr → EvalM Value) (members : ScopeId) : List LetDecl → EvalM Unit
  | [] => return
  | d :: ds => do
    let _ ← execLet eval members d
    execFields eval members ds

/-- Defines a function or a method, whose closure is the scope that it is defined in. -/
def execDef (s : ScopeId) (isMethod : Bool) (d : DefDecl) : EvalM Value := do
  requireFresh s d.name
  match Closure.ofDecl s isMethod d with
  | .ok c =>
    define s d.name (.function (.closure c))
    return .function (.closure c)
  | .error param => fail (.duplicateParameter param d.name)

/-- Defines the methods of an object among its members. -/
def execMethods (members : ScopeId) : List DefDecl → EvalM Unit
  | [] => return
  | d :: ds => do
    let _ ← execDef members true d
    execMethods members ds

/-- Runs the body of a closure in a new scope, where its parameters are bound. A method has a
scope for its receiver in between. -/
def enter (exec : ScopeId → Stmt → EvalM Completion) (c : Closure) (scope : ScopeId)
    (args : List Value) : EvalM Value := do
  let inner ← openChild scope (Bindings.zip c.params args c.params_nodup)
  report (.call c.name args.length)
  match ← runBlock (exec inner) .nil c.body with
  | .returning v =>
    report (.returned c.name)
    return v
  | .normal _ => return .nil

/-- Calls a closure with as many arguments as it has parameters, after the receiver if it is a
method. -/
def callClosure (exec : ScopeId → Stmt → EvalM Completion) (c : Closure) (args : List Value) :
    EvalM Value := do
  if c.isMethod then
    match args with
    | receiver :: args =>
      if args.length = c.params.length then
        let scope ← openChild c.scope (Bindings.singleton selfName receiver)
        enter exec c scope args
      else fail (.arityMismatch c.name c.params.length args.length)
    | [] => fail (.arityMismatch c.name c.params.length (-1))
  else if args.length = c.params.length then enter exec c c.scope args
  else fail (.arityMismatch c.name c.params.length args.length)

/-- Calls a function. -/
def call (exec : ScopeId → Stmt → EvalM Completion) (f : Callable) (args : List Value) :
    EvalM Value :=
  match f with
  | .native f => f.call args
  | .closure c => callClosure exec c args
  | .named _ => return .nil

end ObjectLang.Evaluation
