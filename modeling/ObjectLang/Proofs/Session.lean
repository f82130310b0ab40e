import ObjectLang.Proofs.Scope.Growth
import ObjectLang.Proofs.Steps
import ObjectLang.Session

/-!
Which sessions there are: those that programs of all kinds lead to, whatever comes of them, and those
in which every program has come to its end.
-/

namespace ObjectLang

open Forest

namespace Session

/-- Sessions with any programs, whether they have been rejected, have failed or have ended. -/
inductive Reachable : Session → Prop where
  | start {placement fixtures} : Reachable (start placement fixtures)
  | analyze {σ p} : Reachable σ → Reachable (σ.analyze p).2
  | evaluate {σ depth p} : Reachable σ → Reachable (σ.evaluate depth p).2
  | push {σ} : Reachable σ → Reachable σ.push
  | pop {σ} : Reachable σ → Reachable σ.pop

/-- Sessions of programs that both passes succeed on, in new scopes inside the outermost ones or in
empty ones, with the number of scopes that have been opened and not left since the start. -/
inductive Smooth : Nat → Session → Prop where
  | start {placement fixtures} : placement ≠ .root → Smooth 0 (Session.start placement fixtures)
  | run {n depth p tp σ σ₁ σ₂ v output} : Smooth n σ → σ.analyze p = (.ok tp, σ₁) →
      σ₁.evaluate depth p = (⟨.ok v, output⟩, σ₂) → Smooth n σ₂
  | push {n σ} : Smooth n σ → Smooth (n + 1) σ.push
  | pop {n σ} : Smooth (n + 1) σ → Smooth n σ.pop

variable {n depth : Nat} {p : Program} {tp : Typed.Program Ty} {σ σ₁ : Session}

theorem Smooth.reachable (h : Smooth n σ) : Reachable σ := by
  induction h with
  | start _ => exact .start
  | @run _ depth p _ σ σ₁ σ₂ _ _ _ ha he ih =>
    have h : Reachable ((σ.analyze p).2.evaluate depth p).2 := ih.analyze.evaluate
    rwa [ha, he] at h
  | push _ ih => exact ih.push
  | pop _ ih => exact ih.pop

theorem analyze_eq_ok (h : σ.analyze p = (.ok tp, σ₁)) :
    ∃ st, Analysis.analyze σ.typeScope p ⟨σ.types, σ.log⟩ = .ok tp st ∧
      σ₁ = { σ with types := st.scopes, log := st.trace } := by
  unfold Session.analyze at h
  split at h
  · next tp' st hr =>
    cases h
    exact ⟨st, hr, rfl⟩
  · cases h

/-- The scopes of types that an analysis leaves are those that the session goes on with. -/
theorem analyze_ends (σ : Session) (p : Program) : ∃ st log,
    finalState (Analysis.analyze σ.typeScope p ⟨σ.types, σ.log⟩) = st ∧
      (σ.analyze p).2 = { σ with types := st.scopes, log := log } := by
  unfold Session.analyze
  split <;> next h => exact ⟨_, _, rfl, by rw [h]; rfl⟩

/-- The scopes of values that an evaluation leaves are those that the session goes on with. -/
theorem evaluate_ends (depth : Nat) (σ : Session) (p : Program) : ∃ m log,
    finalState (Evaluation.evaluate depth σ.valueScope p ⟨σ.values, #[], σ.log⟩) = m ∧
      (σ.evaluate depth p).2 = { σ with values := m.scopes, log := log } := by
  unfold Session.evaluate
  split <;> next h => exact ⟨_, _, rfl, by rw [h]; rfl⟩

/-- Analysis leaves the values as they are. -/
theorem analyze_values (σ : Session) (p : Program) :
    (σ.analyze p).2.values = σ.values ∧ (σ.analyze p).2.valueScope = σ.valueScope := by
  obtain ⟨st, log, -, hσ⟩ := analyze_ends σ p
  rw [hσ]
  exact ⟨rfl, rfl⟩

end Session

theorem placed_prelude (fixtures : Bool) :
    Placed (Prelude.types fixtures) Prelude.root ∧ Placed (Prelude.values fixtures) Prelude.root := by
  cases fixtures <;> exact ⟨⟨by decide, by decide⟩, ⟨by decide, by decide⟩⟩

/-- What is in a scope right inside the outermost one when nothing has been evaluated there. -/
theorem Session.child_start (fixtures : Bool) :
    let σ := start .child fixtures
    Placed σ.values σ.valueScope ∧ σ.valueScope = (Prelude.values fixtures).size ∧
      σ.valueNames = [] ∧ BindingsKept (Prelude.values fixtures) σ.values := by
  refine ⟨placed_addChild (placed_prelude fixtures).2, rfl, ?_, kept_addChild⟩
  show ((Prelude.values fixtures).addChild Prelude.root ∅).names (Prelude.values fixtures).size = []
  rw [names, own_addChild, if_pos rfl]
  rfl

end ObjectLang
