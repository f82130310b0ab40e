import ObjectLang.Evaluation.Rules
import ObjectLang.Proofs.Evaluation.Steps
import ObjectLang.Scope.Lemmas

/-!
A loop over a list that is written down is a sequence of blocks, one for each item. Every block
binds the name of the loop in a scope of its own and goes on with the body of the loop.
-/

namespace ObjectLang

/-- The blocks that a loop over some items stands for. -/
def unrolled (name : String) (body : List Stmt) (items : List Literal) : List Stmt :=
  items.map fun item => .ifStmt (.literal (.boolean true))
    (.letStmt (.mk name none (some (.literal item))) :: body) []

/-- A loop has no value of its own, and lets a RETURN through. -/
def Completion.ofLoop : Completion → Completion
  | .normal _ => .normal .nil
  | .returning v => .returning v

theorem Bindings.insert_empty {α : Type} (name : String) (value : α) :
    (∅ : Bindings α).insert name value = .singleton name value := rfl

namespace Evaluation

open Completion

variable {s : ScopeId} {name : String} {m : Machine}

/-- The value before a block is lost on a loop. -/
theorem ofLoop_runBlock (exec : Stmt → EvalM Completion) (v w : Value) (body : List Stmt) :
    ofLoop <$> runBlock exec v body = ofLoop <$> runBlock exec w body := by
  cases body <;> rfl

/-- In a new scope, a name that is bound first could have been bound from the start. -/
theorem let_apply_addChild (depth : Nat) (value : Literal) :
    execStmt (depth + 2) m.scopes.size (.letStmt (.mk name none (some (.literal value))))
        { m with scopes := m.scopes.addChild s ∅ } =
      .ok (.normal value.toValue)
        { m with scopes := m.scopes.addChild s (.singleton name value.toValue) } := by
  have hfresh : (m.scopes.addChild s ∅).containsOwn m.scopes.size name = false := by
    rw [Forest.containsOwn, Forest.own_addChild, if_pos rfl]
    rfl
  have hvalue : evalOption (evalExpr (depth + 1) m.scopes.size) (some (.literal value)) =
      pure value.toValue := rfl
  simp only [execStmt, execLet, bind_apply, requireFresh_apply, define_apply, hvalue, pure_apply,
    hfresh, Bool.false_eq_true, if_false, Forest.insert_addChild, Bindings.insert_empty]

/-- One block does what one turn of the loop does. -/
theorem ofLoop_block (depth : Nat) (s : ScopeId) (name : String) (body : List Stmt)
    (item : Literal) :
    ofLoop <$> execStmt (depth + 3) s (.ifStmt (.literal (.boolean true))
        (.letStmt (.mk name none (some (.literal item))) :: body) []) =
      ofLoop <$> (do
        let inner ← openChild s (Bindings.singleton name item.toValue)
        runBlock (execStmt (depth + 2) inner) .nil body) := by
  funext m
  let bound : Machine :=
    { m with scopes := m.scopes.addChild s (.singleton name item.toValue) }
  have hblock : execStmt (depth + 3) s (.ifStmt (.literal (.boolean true))
      (.letStmt (.mk name none (some (.literal item))) :: body) []) m =
        runBlock (execStmt (depth + 2) m.scopes.size) item.toValue body bound := by
    show runBlock (execStmt (depth + 2) m.scopes.size) .nil
      (.letStmt (.mk name none (some (.literal item))) :: body)
        { m with scopes := m.scopes.addChild s ∅ } = _
    rw [runBlock, bind_apply, let_apply_addChild]
  rw [map_apply, hblock, ← map_apply, ofLoop_runBlock _ item.toValue .nil]
  rfl

/-- What has not returned is followed by the other turns of the loop. -/
def goOn (others : EvalM Completion) : Completion → EvalM Completion
  | .normal _ => others
  | .returning v => return .returning v

theorem bind_goOn (x others : EvalM Completion) :
    x >>= goOn others = (ofLoop <$> x) >>= goOn others := by
  rw [bind_map_left]
  refine congrArg _ (funext fun c => ?_)
  cases c <;> rfl

/-- By induction on the items. -/
theorem runLoop_eq_unrolled (depth : Nat) (s : ScopeId) (name : String) (body : List Stmt)
    (last : Value) (items : List Literal) :
    runLoop (fun item => do
        let inner ← openChild s (Bindings.singleton name item)
        runBlock (execStmt (depth + 2) inner) .nil body) (Literal.toValues items) =
      ofLoop <$> runBlock (execStmt (depth + 3) s) last (unrolled name body items) := by
  induction items generalizing last with
  | nil => rfl
  | cons item items ih =>
    rw [unrolled, List.map_cons, runBlock, Literal.toValues, runLoop, map_bind]
    generalize hturn : (do
        let inner ← openChild s (Bindings.singleton name item.toValue)
        runBlock (execStmt (depth + 2) inner) .nil body) = turn
    generalize hothers : runLoop _ (Literal.toValues items) = others at ih ⊢
    have hblock := ofLoop_block depth s name body item
    rw [hturn] at hblock
    calc
      _ = turn >>= goOn others := congrArg _ (funext fun c => by cases c <;> rfl)
      _ = (ofLoop <$> turn) >>= goOn others := bind_goOn turn others
      _ = _ >>= goOn others := by rw [← hblock, ← bind_goOn]
      _ = _ := congrArg _ (funext fun c => by
        cases c with
        | normal v => exact ih v
        | returning v => rfl)

/-- A loop over a list that is written down ends as the blocks that stand for it do, one after
another in the same scope: in the same state, with its scopes, lines and events, and both normally
(the loop without a value), with the same RETURN on its way, or with the same fault. The three
levels are those of a literal that is bound inside a block. -/
theorem forStmt_unrolled (depth : Nat) (s : ScopeId) (name : String) (items : List Literal)
    (body : List Stmt) (m : Machine) :
    execStmt (depth + 3) s (.forStmt name (.literal (.list items)) body) m =
      match runBlock (execStmt (depth + 3) s) .nil (unrolled name body items) m with
      | .ok (.normal _) m' => .ok (.normal .nil) m'
      | .ok (.returning v) m' => .ok (.returning v) m'
      | .error e m' => .error e m' := by
  have hloop : execStmt (depth + 3) s (.forStmt name (.literal (.list items)) body) =
      runLoop (fun item => do
        let inner ← openChild s (Bindings.singleton name item)
        runBlock (execStmt (depth + 2) inner) .nil body) (Literal.toValues items) := rfl
  rw [hloop, runLoop_eq_unrolled depth s name body .nil items, map_apply]
  split
  · next c m' hr =>
    rw [hr]
    cases c <;> rfl
  · next e m' hr => rw [hr]

end Evaluation

end ObjectLang
