import ObjectLang.Proofs.Analysis.Steps
import ObjectLang.Proofs.Sequence.Output
import ObjectLang.Session

/-!
A source that is run in pieces. The pieces see what those before them have done, and the first that
fails is the last that is run, so it makes no difference where a source is cut.
-/

namespace ObjectLang

/-- The statements of an analysed program. -/
def Typed.Program.statements {τ : Type} : Typed.Program τ → List (Typed.Stmt τ)
  | .source stmts => stmts
  | .stmt st => [st]
  | .expr e => [.exprStmt e]

namespace Evaluation

variable {depth : Nat} {s : ScopeId}

/-- Runs statements outside of all functions. With no statements at all there is the value `last`. -/
def runFrom (depth : Nat) (s : ScopeId) (last : Value) (stmts : List Stmt) : EvalM Value := do
  topLevel (← runBlock (execStmt depth s) last stmts)

theorem runBlock_append (exec : Stmt → EvalM Completion) (last : Value) (a b : List Stmt) :
    runBlock exec last (a ++ b) = do
      match ← runBlock exec last a with
      | .normal v => runBlock exec v b
      | .returning v => return .returning v := by
  induction a generalizing last with
  | nil => rfl
  | cons st a ih =>
    rw [List.cons_append, runBlock, runBlock, bind_assoc]
    refine congrArg _ (funext fun c => ?_)
    cases c with
    | normal v => exact ih v
    | returning v => rfl

theorem runFrom_append (last : Value) (a b : List Stmt) :
    runFrom depth s last (a ++ b) =
      runFrom depth s last a >>= fun v => runFrom depth s v b := by
  rw [runFrom, runFrom, runBlock_append, bind_assoc, bind_assoc]
  refine congrArg _ (funext fun c => ?_)
  cases c <;> rfl

/-- The value before matters only where there are no statements. -/
theorem runFrom_eq (last : Value) (stmts : List Stmt) :
    runFrom depth s last stmts =
      if stmts.isEmpty then pure last else evaluate depth s (.source stmts) := by
  cases stmts <;> rfl

theorem evaluate_append (a b : List Stmt) :
    evaluate depth s (.source (a ++ b)) = (do
      let v ← evaluate depth s (.source a)
      if b.isEmpty then pure v else evaluate depth s (.source b)) := by
  have hwhole (stmts : List Stmt) :
      evaluate depth s (.source stmts) = runFrom depth s .nil stmts := rfl
  rw [hwhole, runFrom_append, hwhole a]
  exact congrArg _ (funext fun v => runFrom_eq v b)

theorem blind_runFrom (last : Value) (stmts : List Stmt) : Blind (runFrom depth s last stmts) := by
  refine blind_of_mirrors fun T => ?_
  apply (mirrors_runBlock (mirrors_of_depth T depth).2 s last.still_refl stmts
    (blockAvoids_nil stmts)).bind
  intro c c' hc
  exact mirrors_topLevel hc

end Evaluation

namespace Analysis

theorem analyzeBlock_append (s : ScopeId) (returns : Option Ty) (a b : List Stmt) :
    analyzeBlock s returns (a ++ b) = do
      return (← analyzeBlock s returns a) ++ (← analyzeBlock s returns b) := by
  induction a with
  | nil => simp [analyzeBlock]
  | cons st a ih => simp [analyzeBlock, ih, bind_assoc]

theorem analyze_append {s : ScopeId} (a b : List Stmt) :
    analyze s (.source (a ++ b)) = do
      let first ← analyze s (.source a)
      let second ← analyze s (.source b)
      return .source (first.statements ++ second.statements) := by
  simp only [analyze, analyzeBlock_append, bind_assoc, pure_bind, Typed.Program.statements]

end Analysis

namespace Session

open Evaluation

/-- Evaluates the pieces of a source one after another, each in a step of its own, up to the first
that fails. The value is that of the last piece with statements, `last` if there is none. -/
def evaluateInTurn (depth : Nat) (σ : Session) (last : Value) : List (List Stmt) → Outcome × Session
  | [] => (⟨.ok last, ""⟩, σ)
  | piece :: pieces =>
    match σ.evaluate depth (.source piece) with
    | (⟨.ok v, output⟩, σ₁) =>
      let (rest, σ₂) := evaluateInTurn depth σ₁ (if piece.isEmpty then last else v) pieces
      (⟨rest.result, output ++ rest.output⟩, σ₂)
    | (⟨.error e, output⟩, σ₁) => (⟨.error e, output⟩, σ₁)

/-- Analyses the pieces of a source one after another, each in a step of its own, up to the first
that is rejected. -/
def analyzeInTurn (σ : Session) :
    List (List Stmt) → Except AnalysisError (Typed.Program Ty) × Session
  | [] => (.ok (.source []), σ)
  | piece :: pieces =>
    let (result, σ₁) := σ.analyze (.source piece)
    match result with
    | .ok typed =>
      let (rest, σ₂) := analyzeInTurn σ₁ pieces
      (rest.map fun more => .source (typed.statements ++ more.statements), σ₂)
    | .error e => (.error e, σ₁)

/-- Runs steps of evaluation in the current scopes of values. -/
def run (σ : Session) (x : EvalM Value) : Outcome × Session :=
  match x ⟨σ.values, #[], σ.log⟩ with
  | .ok v m => (⟨.ok v, m.text⟩, { σ with values := m.scopes, log := m.trace })
  | .error e m => (⟨.error e, m.text⟩, { σ with values := m.scopes, log := m.trace })

theorem evaluate_eq_run (depth : Nat) (σ : Session) (p : Program) :
    σ.evaluate depth p = σ.run (Evaluation.evaluate depth σ.valueScope p) := rfl

theorem run_valueScope (σ : Session) (x : EvalM Value) : (σ.run x).2.valueScope = σ.valueScope := by
  unfold run
  split <;> rfl

theorem foldl_lines (lines : List String) (text : String) :
    lines.foldl (fun text line => text ++ line ++ "\n") text =
      text ++ lines.foldl (fun text line => text ++ line ++ "\n") "" := by
  induction lines generalizing text with
  | nil => simp
  | cons line lines ih =>
    rw [List.foldl_cons, List.foldl_cons, ih, ih ("" ++ line ++ "\n")]
    simp [String.append_assoc]

theorem text_after (m₁ m : Machine) : (m.after m₁.output).text = m₁.text ++ m.text := by
  simp only [Machine.text, Machine.after, ← Array.foldl_toList, Array.toList_append,
    List.foldl_append]
  exact foldl_lines _ _

/-- Steps that take no notice of what was written before may as well be run apart. -/
theorem run_bind (σ : Session) (x : EvalM Value) {f : Value → EvalM Value} (hf : ∀ v, Blind (f v)) :
    σ.run (x >>= f) = match σ.run x with
      | (⟨.ok v, output⟩, σ₁) =>
        let (rest, σ₂) := σ₁.run (f v)
        (⟨rest.result, output ++ rest.output⟩, σ₂)
      | (⟨.error e, output⟩, σ₁) => (⟨.error e, output⟩, σ₁) := by
  rw [run, run, bind_apply]
  cases x ⟨σ.values, #[], σ.log⟩ with
  | error e m => rfl
  | ok v m =>
    have hm : m = (⟨m.scopes, #[], m.trace⟩ : Machine).after m.output := by simp [Machine.after]
    have hrest : f v m = afterResult m.output (f v ⟨m.scopes, #[], m.trace⟩) := by
      rw [← hf v, ← hm]
    dsimp only
    rw [hrest, run]
    cases f v ⟨m.scopes, #[], m.trace⟩ <;> simp only [afterResult, text_after] <;> rfl

/-- Wherever a source is cut, its pieces evaluated in turn come to the same as the whole. -/
theorem run_flatten (depth : Nat) (σ : Session) (last : Value) (pieces : List (List Stmt)) :
    σ.run (runFrom depth σ.valueScope last pieces.flatten) = σ.evaluateInTurn depth last pieces := by
  induction pieces generalizing σ last with
  | nil => rfl
  | cons piece pieces ih =>
    have hrest (σ₁ : Session) (h : σ₁.valueScope = σ.valueScope) (v : Value) :
        σ₁.run (runFrom depth σ.valueScope v pieces.flatten) = σ₁.evaluateInTurn depth v pieces := by
      rw [← h]
      exact ih σ₁ v
    rw [List.flatten_cons, runFrom_append, run_bind σ _ fun v => blind_runFrom v _, evaluateInTurn,
      evaluate_eq_run]
    cases piece with
    | nil =>
      have hpure (v : Value) : σ.run (pure v) = (⟨.ok v, ""⟩, σ) := rfl
      have hfirst : runFrom depth σ.valueScope last [] = pure last := rfl
      have hnone : Evaluation.evaluate depth σ.valueScope (.source []) = pure .nil := rfl
      rw [hfirst, hnone, hpure, hpure]
      dsimp only
      rw [hrest σ rfl]
      rfl
    | cons st piece =>
      have hfirst : runFrom depth σ.valueScope last (st :: piece) =
          Evaluation.evaluate depth σ.valueScope (.source (st :: piece)) := rfl
      have hscope := σ.run_valueScope (Evaluation.evaluate depth σ.valueScope (.source (st :: piece)))
      rw [hfirst]
      generalize σ.run (Evaluation.evaluate depth σ.valueScope (.source (st :: piece))) = r at hscope
      obtain ⟨⟨v | e, output⟩, σ₁⟩ := r
      · rfl
      · dsimp only
        rw [hrest σ₁ hscope]
        rfl

/-- Wherever a source is cut, its pieces analysed in turn come to the same as the whole. -/
theorem analyze_flatten (σ : Session) (pieces : List (List Stmt)) :
    σ.analyze (.source pieces.flatten) = σ.analyzeInTurn pieces := by
  induction pieces generalizing σ with
  | nil => rfl
  | cons piece pieces ih =>
    rw [List.flatten_cons, analyzeInTurn, analyze, analyze, Analysis.analyze_append, bind_apply]
    cases Analysis.analyze σ.typeScope (.source piece) ⟨σ.types, σ.log⟩ with
    | error e st => rfl
    | ok typed st =>
      dsimp only
      rw [← ih, analyze, bind_apply]
      dsimp only
      cases Analysis.analyze σ.typeScope (.source pieces.flatten) ⟨st.scopes, st.trace⟩ <;> rfl

/-- A source that is run in pieces is run as a whole. Evaluation of two lists of statements is
evaluation of the first and then, where that succeeded, of the second, with its value unless it is
empty; analysis puts the results of the two together. So a session comes to the same results, the
same output, the same scopes and the same log wherever a source is cut into programs of their own,
also when one of them fails. -/
theorem runs_in_pieces :
    (∀ depth s a b, Evaluation.evaluate depth s (.source (a ++ b)) = do
      let v ← Evaluation.evaluate depth s (.source a)
      if b.isEmpty then pure v else Evaluation.evaluate depth s (.source b)) ∧
    (∀ s a b, Analysis.analyze s (.source (a ++ b)) = do
      let first ← Analysis.analyze s (.source a)
      let second ← Analysis.analyze s (.source b)
      return .source (first.statements ++ second.statements)) ∧
    (∀ depth (σ : Session) pieces,
      σ.evaluate depth (.source pieces.flatten) = σ.evaluateInTurn depth .nil pieces) ∧
    ∀ (σ : Session) pieces, σ.analyze (.source pieces.flatten) = σ.analyzeInTurn pieces :=
  ⟨fun _ _ => evaluate_append, fun _ => Analysis.analyze_append,
    fun depth σ => run_flatten depth σ .nil, analyze_flatten⟩

end Session

end ObjectLang
