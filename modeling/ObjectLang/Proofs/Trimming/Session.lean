import ObjectLang.Proofs.Trimming.Evaluation
import ObjectLang.Session

/-!
What users see of a program. It is the same for every depth that suffices, and the same without the
annotations, parentheses and unreachable statements of the program.
-/

namespace ObjectLang.Session

open Evaluation

/-- What can be told of an evaluation that has enough depth: the value by itself or the fault, all
that was written, and the log. -/
def shown (depth : Nat) (σ : Session) (p : Program) :
    Option (Except Fault ValueSnapshot × String × Array Event) :=
  match σ.evaluate depth p with
  | (⟨.ok v, output⟩, σ') => some (.ok (NumberingM.fromStart (v.snapshot σ'.values)), output, σ'.log)
  | (⟨.error .tooDeep, _⟩, _) => none
  | (⟨.error e, output⟩, σ') => some (.error e, output, σ'.log)

/-- What can be told of the end of a run. -/
def told : EStateM.Result Fault Machine Value →
    Option (Except Fault ValueSnapshot × String × Array Event)
  | .ok v m => some (.ok (NumberingM.fromStart (v.snapshot m.scopes)), m.text, m.trace)
  | .error .tooDeep _ => none
  | .error e m => some (.error e, m.text, m.trace)

variable {σ : Session} {p p' : Program} {depth : Nat}
  {r r' : Except Fault ValueSnapshot × String × Array Event}

theorem shown_eq : σ.shown depth p =
    told (Evaluation.evaluate depth σ.valueScope p ⟨σ.values, #[], σ.log⟩) := by
  unfold shown Session.evaluate
  cases Evaluation.evaluate depth σ.valueScope p ⟨σ.values, #[], σ.log⟩ with
  | ok v m => rfl
  | error e m => cases e <;> rfl

/-- Trimming is not to be told. -/
theorem told_eq_of_trim {x y : EStateM.Result Fault Machine Value}
    (h : trimResult Value.trim x = trimResult Value.trim y) : told x = told y := by
  have htold (x : EStateM.Result Fault Machine Value) : told (trimResult Value.trim x) = told x := by
    cases x with
    | ok v m =>
      show some (_, _, _) = some (_, _, _)
      rw [Machine.trim, Value.snapshot_trim]
      rfl
    | error e m => cases e <;> rfl
  rw [← htold x, h, htold y]

/-- Whatever is shown of a program is shown, given enough depth, of all that are trimmed alike. -/
theorem shown_of_trim (htrim : p.trim = p'.trim) (h : σ.shown depth p = some r) :
    ∃ least, ∀ depth' ≥ least, σ.shown depth' p' = some r := by
  rw [shown_eq] at h
  have hdeep (m₁ : Machine) :
      Evaluation.evaluate depth σ.valueScope p ⟨σ.values, #[], σ.log⟩ ≠ .error .tooDeep m₁ := by
    intro he
    rw [he] at h
    cases h
  obtain ⟨end', hend, least, hrun⟩ :=
    evaluate_follows depth σ.valueScope htrim ⟨σ.values, #[], σ.log⟩ _ rfl hdeep
  refine ⟨least, fun depth' hdepth => ?_⟩
  have hrun' : Evaluation.evaluate depth' σ.valueScope p' ⟨σ.values, #[], σ.log⟩ = end' :=
    hrun depth' hdepth
  rw [shown_eq, hrun', told_eq_of_trim hend, h]

/-- Depth does not change what is shown, unless there is too little of it. -/
theorem shown_unique {depth' : Nat} (h : σ.shown depth p = some r)
    (h' : σ.shown depth' p = some r') : r = r' := by
  obtain ⟨least, hrun⟩ := shown_of_trim rfl h
  obtain ⟨least', hrun'⟩ := shown_of_trim rfl h'
  have hsame := (hrun (max least least') (by omega)).symm.trans (hrun' _ (by omega))
  exact Option.some.inj hsame

/-- From wherever a program starts, evaluation takes no notice of its annotations, its parentheses and
what stands after a RETURN, also in the functions that it makes. -/
theorem shown_trim (σ : Session) (p : Program)
    (r : Except Fault ValueSnapshot × String × Array Event) :
    (∃ depth, σ.shown depth p = some r) ↔ ∃ depth, σ.shown depth p.trim = some r := by
  constructor
  · rintro ⟨depth, h⟩
    obtain ⟨least, hrun⟩ := shown_of_trim p.trim_trim.symm h
    exact ⟨least, hrun least (Nat.le_refl least)⟩
  · rintro ⟨depth, h⟩
    obtain ⟨least, hrun⟩ := shown_of_trim p.trim_trim h
    exact ⟨least, hrun least (Nat.le_refl least)⟩

end ObjectLang.Session
