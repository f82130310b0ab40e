import ObjectLang.Proofs.Session
import ObjectLang.Proofs.Typing.Failure

/-!
The scopes that sessions work in. No object type is ever found that has the members of such a scope,
so every program of a session is analysed in an open scope, whatever came of the programs before it.
-/

namespace ObjectLang

open Forest

/-- A scope is open, and so are all scopes around it. -/
inductive OpenChain (Γ : TypeScopes) : ScopeId → Prop where
  | mk {s} : Open Γ s → (∀ t, Γ.parent? s = some t → OpenChain Γ t) → OpenChain Γ s

section OpenChain

variable {Γ Γ₁ Γ₂ : TypeScopes} {s r : ScopeId} {added : List (String × Ty)}

theorem OpenChain.isOpen (h : OpenChain Γ s) : Open Γ s := by
  cases h with
  | mk ho => exact ho

theorem OpenChain.grow (h : OpenChain Γ₁ s) (hadds : AddsEntries r added Γ₁ Γ₂)
    (hnew : FindsNew Γ₁ Γ₂) : OpenChain Γ₂ s := by
  induction h with
  | @mk s ho _ ih =>
    refine .mk (ho.grow hadds hnew) fun t ht => ih t ?_
    rwa [parent?, hadds.outer_eq s ho.own_lt] at ht

theorem OpenChain.push (h : OpenChain Γ s) : OpenChain (Γ.addChild s ∅) Γ.size := by
  have hg := h.isOpen.toGrounded
  refine .mk (open_addChild hg Analysis.objects_empty) fun t ht => ?_
  rw [parent?, outer_addChild, if_pos rfl] at ht
  obtain rfl : s = t := Option.some.inj ht
  exact h.grow (kept_addChild.adds s) (advances_addChild hg Analysis.objects_empty).toFindsNew

theorem OpenChain.pop (h : OpenChain Γ s) : OpenChain Γ ((Γ.parent? s).getD s) := by
  cases hp : Γ.parent? s with
  | none => exact h
  | some t =>
    cases h with
    | mk _ h => exact h t hp

theorem openChain_of_root (hs : Γ.outer s = []) (ho : Open Γ s) : OpenChain Γ s :=
  .mk ho fun t ht => by simp [parent?, hs] at ht

/-- The object among the fixtures has the only object type there is at first. -/
theorem refers_prelude {fixtures : Bool} {a : ScopeId} (h : (Prelude.types fixtures).Refers a) :
    fixtures = true ∧ a = Prelude.fixtureMembers := by
  refine forall_refers (P := fun a => fixtures = true ∧ a = Prelude.fixtureMembers) ?_ h
  cases fixtures <;> decide

theorem openChain_prelude (fixtures : Bool) : OpenChain (Prelude.types fixtures) Prelude.root := by
  refine openChain_of_root (by cases fixtures <;> decide) ⟨⟨(placed_prelude fixtures).1, ?_⟩, ?_⟩
  · intro a ha
    obtain ⟨rfl, rfl⟩ := refers_prelude ha
    decide
  · intro ha
    cases (refers_prelude ha).2

end OpenChain

namespace Session

variable {p : Program} {σ : Session}

theorem openChain_start {placement : Placement} {fixtures : Bool} :
    OpenChain (start placement fixtures).types (start placement fixtures).typeScope := by
  cases placement with
  | child => exact (openChain_prelude fixtures).push
  | root => exact openChain_prelude fixtures
  | empty =>
    exact openChain_of_root rfl (open_addRoot fun a ha => (not_refers_empty ha).elim)

theorem analyze_types : (σ.analyze p).2.types =
    (finalState (Analysis.analyze σ.typeScope p ⟨σ.types, σ.log⟩)).scopes := by
  unfold Session.analyze
  split <;> next h => rw [h, finalState]

theorem analyze_typeScope : (σ.analyze p).2.typeScope = σ.typeScope := by
  unfold Session.analyze
  split <;> rfl

/-- Whatever has happened in a session, its scopes of types are open. -/
theorem Reachable.openChain (h : Reachable σ) : OpenChain σ.types σ.typeScope := by
  induction h with
  | start => exact openChain_start
  | @analyze σ p _ ih =>
    rw [analyze_types, analyze_typeScope]
    obtain ⟨_, hadds⟩ := Analysis.keeps_analyze σ.typeScope p ⟨σ.types, σ.log⟩
    exact ih.grow hadds (Analysis.analyze_discovers p ⟨σ.types, σ.log⟩ (ih.isOpen.accepts _))
  | @evaluate σ depth p _ ih =>
    unfold Session.evaluate
    split <;> exact ih
  | push _ ih => exact ih.push
  | pop _ ih => exact ih.pop

end Session

end ObjectLang
