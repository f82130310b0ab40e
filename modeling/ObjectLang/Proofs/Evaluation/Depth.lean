import ObjectLang.Evaluation.Rules
import ObjectLang.Proofs.Steps

/-!
More depth than a run needs. A run that does not end as too deep has not used up its depth anywhere, so
with more depth it takes the same steps and comes to the same end.
-/

namespace ObjectLang.Evaluation

variable {α β : Type} {x x' : EvalM α} {f f' : α → EvalM β} {depth depth' : Nat} {m : Machine}

/-- From any state, the first run ends as too deep or the second one ends the same. -/
def Deepens (x x' : EvalM α) : Prop := ∀ m, (∃ m', x m = .error .tooDeep m') ∨ x' m = x m

theorem Deepens.refl (x : EvalM α) : Deepens x x := fun _ => .inr rfl

theorem Deepens.tooDeep : Deepens (throw .tooDeep) x' := fun m => .inl ⟨m, rfl⟩

theorem Deepens.bind (hx : Deepens x x') (hf : ∀ a, Deepens (f a) (f' a)) :
    Deepens (x >>= f) (x' >>= f') := by
  intro m
  rw [bind_apply, bind_apply]
  obtain ⟨m', hm⟩ | hm := hx m
  · rw [hm]
    exact .inl ⟨m', rfl⟩
  · rw [hm]
    cases x m with
    | ok a m' => exact hf a m'
    | error e m' => exact .inr rfl

/-- What comes after the first step takes up no depth. -/
theorem Deepens.then (hx : Deepens x x') (f : α → EvalM β) : Deepens (x >>= f) (x' >>= f) :=
  hx.bind fun a => .refl (f a)

section Lists

theorem deepens_runBlock {exec exec' : Stmt → EvalM Completion}
    (h : ∀ st, Deepens (exec st) (exec' st)) (last : Value) (sts : List Stmt) :
    Deepens (runBlock exec last sts) (runBlock exec' last sts) := by
  induction sts generalizing last with
  | nil => exact .refl _
  | cons st sts ih =>
    refine (h st).bind fun c => ?_
    cases c with
    | normal v => exact ih v
    | returning v => exact .refl _

theorem deepens_runLoop {body body' : Value → EvalM Completion}
    (h : ∀ v, Deepens (body v) (body' v)) (items : List Value) :
    Deepens (runLoop body items) (runLoop body' items) := by
  induction items with
  | nil => exact .refl _
  | cons item items ih =>
    refine (h item).bind fun c => ?_
    cases c with
    | normal v => exact ih
    | returning v => exact .refl _

variable {eval eval' : Expr → EvalM Value} (h : ∀ e, Deepens (eval e) (eval' e))
include h

theorem deepens_evalArgs (es : List Expr) : Deepens (evalArgs eval es) (evalArgs eval' es) := by
  induction es with
  | nil => exact .refl _
  | cons e es ih => exact (h e).bind fun v => ih.then _

theorem deepens_evalOption (value : Option Expr) :
    Deepens (evalOption eval value) (evalOption eval' value) := by
  cases value with
  | none => exact .refl _
  | some e => exact h e

theorem deepens_execLet (s : ScopeId) (d : LetDecl) :
    Deepens (execLet eval s d) (execLet eval' s d) := by
  obtain ⟨name, _, value⟩ := d
  exact (Deepens.refl _).bind fun _ => (deepens_evalOption h value).then _

theorem deepens_execFields (members : ScopeId) (ds : List LetDecl) :
    Deepens (execFields eval members ds) (execFields eval' members ds) := by
  induction ds with
  | nil => exact .refl _
  | cons d ds ih => exact (deepens_execLet h members d).bind fun _ => ih

end Lists

theorem deepens_call {exec exec' : ScopeId → Stmt → EvalM Completion}
    (h : ∀ s st, Deepens (exec s st) (exec' s st)) (f : Callable) (args : List Value) :
    Deepens (call exec f args) (call exec' f args) := by
  have henter (c : Closure) (scope : ScopeId) (args : List Value) :
      Deepens (enter exec c scope args) (enter exec' c scope args) :=
    (Deepens.refl _).bind fun inner => (Deepens.refl _).bind fun _ =>
      (deepens_runBlock (h inner) .nil c.body).then _
  cases f with
  | native f => exact .refl _
  | named name => exact .refl _
  | closure c =>
    show Deepens (callClosure exec c args) (callClosure exec' c args)
    unfold callClosure
    split
    · split
      · split
        · exact (Deepens.refl _).bind fun scope => henter c scope _
        · exact .refl _
      · exact .refl _
    · split
      · exact henter c c.scope args
      · exact .refl _

theorem deepens_binary (op : Operator) {left left' right right' : EvalM Value}
    (hl : Deepens left left') (hr : Deepens right right') :
    Deepens (binary op left right) (binary op left' right') := by
  have hlogical : Deepens (logical op right) (logical op right') := hr.then _
  cases op with
  | and | or =>
    refine hl.bind fun a => (Deepens.refl _).bind fun holds => ?_
    cases holds
    all_goals first | exact hlogical | exact .refl _
  | _ => exact hl.bind fun a => hr.then _

/-- With one level more, every expression ends as it does at this depth, if it does not need more. -/
def ExprDeepens (depth : Nat) : Prop := ∀ s e, Deepens (evalExpr depth s e) (evalExpr (depth + 1) s e)

/-- With one level more, every statement ends as it does at this depth, if it does not need more. -/
def StmtDeepens (depth : Nat) : Prop :=
  ∀ s st, Deepens (execStmt depth s st) (execStmt (depth + 1) s st)

theorem exprDeepens_succ (he : ExprDeepens depth) (hs : StmtDeepens depth) :
    ExprDeepens (depth + 1) := by
  intro s e
  cases e with
  | literal value => exact .refl _
  | group inner => exact he s inner
  | binary symbol left right =>
    unfold evalExpr
    dsimp only
    split
    · exact deepens_binary _ (he s left) (he s right)
    · exact (he s left).bind fun _ => (he s right).then _
  | var name => exact .refl _
  | property receiver name => exact (he s receiver).then _
  | call name args =>
    refine (Deepens.refl _).bind fun found => ?_
    cases found with
    | none => exact .refl _
    | some v =>
      exact (Deepens.refl _).bind fun f => (deepens_evalArgs (he s) args).bind fun vs =>
        deepens_call hs f vs
  | methodCall receiver name args =>
    exact (he s receiver).bind fun object => (Deepens.refl _).bind fun members =>
      (Deepens.refl _).bind fun v => (Deepens.refl _).bind fun f =>
        (deepens_evalArgs (he s) args).bind fun vs => deepens_call hs f (object :: vs)
  | object name fields methods =>
    exact (Deepens.refl _).bind fun members => (deepens_execFields (he members) members fields).then _
  | misplaced kind => exact .refl _

theorem stmtDeepens_succ (he : ExprDeepens depth) (hs : StmtDeepens depth) :
    StmtDeepens (depth + 1) := by
  intro s st
  cases st with
  | letStmt decl => exact (deepens_execLet (he s) s decl).then _
  | defStmt decl => exact .refl _
  | ifStmt condition thenBody elseBody =>
    exact (he s condition).bind fun v => (Deepens.refl _).bind fun holds =>
      (Deepens.refl _).bind fun inner => deepens_runBlock (hs inner) .nil _
  | forStmt name iterable body =>
    exact (he s iterable).bind fun v => (Deepens.refl _).bind fun items =>
      deepens_runLoop (fun item => (Deepens.refl _).bind fun inner =>
        deepens_runBlock (hs inner) .nil body) items
  | returnStmt value => exact (deepens_evalOption (he s) value).then _
  | exprStmt e => exact (he s e).then _
  | assignStmt target value =>
    cases target with
    | var name => exact (Deepens.refl _).bind fun _ => (he s value).then _
    | property receiver name =>
      exact (he s receiver).bind fun v => (Deepens.refl _).bind fun members =>
        (Deepens.refl _).bind fun _ => (he s value).then _
    | _ => exact .refl _
  | misplaced kind => exact .refl _

theorem deepens_of_depth (depth : Nat) : ExprDeepens depth ∧ StmtDeepens depth := by
  induction depth with
  | zero => exact ⟨fun _ _ => .tooDeep, fun _ _ => .tooDeep⟩
  | succ depth ih => exact ⟨exprDeepens_succ ih.1 ih.2, stmtDeepens_succ ih.1 ih.2⟩

theorem deepens_evaluate (depth : Nat) (s : ScopeId) (p : Program) :
    Deepens (evaluate depth s p) (evaluate (depth + 1) s p) := by
  obtain ⟨he, hs⟩ := deepens_of_depth depth
  cases p with
  | source stmts => exact (deepens_runBlock (hs s) .nil stmts).then _
  | stmt st => exact (hs s st).then _
  | expr e => exact he s e

/-- A program that does not end as too deep ends the same with any greater depth. -/
theorem evaluate_of_le {s : ScopeId} {p : Program}
    (hdeep : ∀ m', evaluate depth s p m ≠ .error .tooDeep m') (hle : depth ≤ depth') :
    evaluate depth' s p m = evaluate depth s p m := by
  induction hle with
  | refl => rfl
  | @step depth' _ ih =>
    obtain ⟨m', hm⟩ | hm := deepens_evaluate depth' s p m
    · exact absurd (ih.symm.trans hm) (hdeep m')
    · exact hm.trans ih

end ObjectLang.Evaluation
