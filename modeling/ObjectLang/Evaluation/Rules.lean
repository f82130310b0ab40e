import ObjectLang.Evaluation.Call
import ObjectLang.Evaluation.Operator

/-!
Evaluation of whole programs. A running program nests expressions, statements and calls in each
other; `depth` bounds that nesting, and a program that needs more ends as too deep. Lists of
statements, arguments and loops use up no depth, so a program without functions of its own needs
no more than its tree is high.
-/

namespace ObjectLang.Evaluation

mutual

/-- The value of an expression in a scope. -/
def evalExpr : (depth : Nat) → ScopeId → Expr → EvalM Value
  | 0, _, _ => throw .tooDeep
  | depth + 1, s, e =>
    match e with
    | .literal value => return value.toValue
    | .group inner => evalExpr depth s inner
    | .binary symbol left right => do
      match Operator.ofSymbol? symbol with
      | some op => binary op (evalExpr depth s left) (evalExpr depth s right)
      | none =>
        let _ ← evalExpr depth s left
        let _ ← evalExpr depth s right
        fail (.defect (.unknownOperator symbol))
    | .var name => do
      match ← lookup s name with
      | some v => return v
      | none => fail (.undefinedName name)
    | .property receiver name => do
      let members ← requireObject (← evalExpr depth s receiver)
      member members name
    | .call name args => do
      match ← lookup s name with
      | some v =>
        let f ← requireFunction name v
        let args ← evalArgs (evalExpr depth s) args
        call (execStmt depth) f args
      | none => fail (.undefinedFunction name)
    | .methodCall receiver name args => do
      let object ← evalExpr depth s receiver
      let members ← requireObject object
      let f ← requireFunction name (← member members name)
      let args ← evalArgs (evalExpr depth s) args
      call (execStmt depth) f (object :: args)
    | .object name fields methods => do
      let members ← openRoot
      execFields (evalExpr depth members) members fields
      execMethods members methods
      return .object name members
    | .misplaced kind => fail (.defect (.unhandledExpression kind))

/-- Runs a statement in a scope. -/
def execStmt : (depth : Nat) → ScopeId → Stmt → EvalM Completion
  | 0, _, _ => throw .tooDeep
  | depth + 1, s, st =>
    match st with
    | .letStmt decl => return .normal (← execLet (evalExpr depth s) s decl)
    | .defStmt decl => return .normal (← execDef s false decl)
    | .ifStmt condition thenBody elseBody => do
      let holds ← requireCondition (← evalExpr depth s condition)
      let inner ← openChild s ∅
      runBlock (execStmt depth inner) .nil (if holds then thenBody else elseBody)
    | .forStmt name iterable body => do
      let items ← requireList (← evalExpr depth s iterable)
      runLoop (fun item => do
        let inner ← openChild s (Bindings.singleton name item)
        runBlock (execStmt depth inner) .nil body) items
    | .returnStmt value => return .returning (← evalOption (evalExpr depth s) value)
    | .exprStmt e => return .normal (← evalExpr depth s e)
    | .assignStmt (.var name) value => do
      requireBound s name
      let v ← evalExpr depth s value
      assign s name v
      return .normal v
    | .assignStmt (.property receiver name) value => do
      let members ← requireObject (← evalExpr depth s receiver)
      requireMember members name
      let v ← evalExpr depth s value
      assign members name v
      return .normal v
    | .assignStmt target _ => fail (.invalidTarget target.kind)
    | .misplaced kind => fail (.defect (.unhandledStatement kind))

end

/-- The value of what has ended outside of all functions, where nothing can be returned to. -/
def topLevel : Completion → EvalM Value
  | .normal v => return v
  | .returning _ => fail .unhandledReturn

/-- The value of a program in a scope: that of its last statement, for a source. -/
def evaluate (depth : Nat) (s : ScopeId) : Program → EvalM Value
  | .source stmts => do topLevel (← runBlock (execStmt depth s) .nil stmts)
  | .stmt st => do topLevel (← execStmt depth s st)
  | .expr e => evalExpr depth s e

end ObjectLang.Evaluation
