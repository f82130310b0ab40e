import Mathlib
import ObjectLang.Proofs.Session
import ObjectLang.Proofs.Shapes.Analysis
import ObjectLang.Proofs.Shapes.Evaluation

/-!
The shapes of objects over whole sessions. A literal that both passes accept gives a type and a value
with the same members but for the object itself, and neither gets or loses a member in anything that
the session does next: no session works in the members of an object that is complete, and a run adds
names to its own scope only.
-/

namespace ObjectLang

open Forest

namespace Forest

variable {α : Type} {P Q : ScopeId → Prop} {f g : Forest α} {s r a : ScopeId}
  {added names more declared : List String} {before later : List (Sight α)}

/-- A scope is there and satisfies `P`, and so do the scopes around it, from parent to parent. -/
inductive Chained (P : ScopeId → Prop) (f : Forest α) : ScopeId → Prop where
  | mk {t} : t < f.size → P t → (∀ u, f.parent? t = some u → Chained P f u) → Chained P f t

theorem Chained.lt (h : Chained P f s) : s < f.size := by
  cases h with
  | mk hs _ _ => exact hs

theorem Chained.holds (h : Chained P f s) : P s := by
  cases h with
  | mk _ hP _ => exact hP

theorem Chained.imp (h : Chained P f s) (hPQ : ∀ t < f.size, P t → Q t) : Chained Q f s := by
  induction h with
  | mk hs hP _ ih => exact .mk hs (hPQ _ hs hP) ih

theorem Chained.adds (h : Chained P f s) (hadds : AddsNames r added f g) : Chained P g s := by
  induction h with
  | mk hs hP _ ih =>
    refine .mk (Nat.lt_of_lt_of_le hs hadds.size_le) hP fun t ht => ih t ?_
    rwa [parent?, hadds.outer_eq _ hs] at ht

theorem Chained.push (h : Chained P f s) (hP : P f.size) : Chained P (f.addChild s ∅) f.size := by
  have hkept : NamesKept f (f.addChild s ∅) := kept_addChild
  refine .mk (by simp) hP fun t ht => ?_
  rw [parent?, outer_addChild, if_pos rfl] at ht
  obtain rfl : s = t := Option.some.inj ht
  exact h.adds (hkept.adds s)

theorem Chained.pop (h : Chained P f s) : Chained P f ((f.parent? s).getD s) := by
  cases hp : f.parent? s with
  | none => exact h
  | some t =>
    cases h with
    | mk _ _ h => exact h t hp

theorem Shaped.adds (h : f.Shaped a names) (hs : s ≠ a) (hadds : AddsNames s added f g) :
    g.Shaped a names := by
  refine ⟨Nat.lt_of_lt_of_le h.lt hadds.size_le, ?_⟩
  rw [← h.names_eq]
  simpa [Forest.names, hs.symm] using hadds.view_eq a h.lt

/-- What is true of the scope in which a session goes on stays true, whatever the session does. -/
structure Steady (P : Forest α → ScopeId → Prop) : Prop where
  adds : ∀ {f g s added}, P f s → AddsNames s added f g → P g s
  push : ∀ {f s}, P f s → P (f.addChild s ∅) f.size
  pop : ∀ {f s}, P f s → P f ((f.parent? s).getD s)

end Forest

namespace Session

/-- Sessions that a session leads to. -/
inductive Later (σ : Session) : Session → Prop where
  | now : Later σ σ
  | analyze {τ p} : Later σ τ → Later σ (τ.analyze p).2
  | evaluate {τ depth p} : Later σ τ → Later σ (τ.evaluate depth p).2
  | push {τ} : Later σ τ → Later σ τ.push
  | pop {τ} : Later σ τ → Later σ τ.pop

/-- Sessions that a session leads to when it may go into any scopes, with a condition on the programs
that are analysed and the sessions that analyse them, and one for those that are evaluated. -/
inductive Led (P Q : Session → Program → Prop) (σ : Session) : Session → Prop where
  | now : Led P Q σ σ
  | analyze {τ p} : P τ p → Led P Q σ τ → Led P Q σ (τ.analyze p).2
  | evaluate {τ depth p} : Q τ p → Led P Q σ τ → Led P Q σ (τ.evaluate depth p).2
  | push {τ} : Led P Q σ τ → Led P Q σ τ.push
  | enter {τ s r} : Led P Q σ τ → Led P Q σ { τ with typeScope := s, valueScope := r }

/-- Analysis of the program declares no name in the scope `a`. -/
def SparesType (a : ScopeId) (σ : Session) (p : Program) : Prop := σ.typeScope = a → p.declared = []

/-- Evaluation of the program declares no name in the scope `a`. -/
def SparesValue (a : ScopeId) (σ : Session) (p : Program) : Prop :=
  σ.valueScope = a → p.declared = []

variable {σ τ : Session} {p : Program} {depth : Nat} {a : ScopeId} {declared : List String}

section Steady

variable {P : TypeScopes → ScopeId → Prop} {Q : ValueScopes → ScopeId → Prop}

theorem Later.types (hP : Steady P) (h : Later σ τ) (hσ : P σ.types σ.typeScope) :
    P τ.types τ.typeScope := by
  induction h with
  | now => exact hσ
  | @analyze τ p _ ih =>
    obtain ⟨st, log, rfl, hτ⟩ := analyze_ends τ p
    obtain ⟨_, hadds⟩ := Analysis.keeps_analyze τ.typeScope p ⟨τ.types, τ.log⟩
    rw [hτ]
    exact hP.adds ih hadds.names
  | @evaluate τ depth p _ ih =>
    obtain ⟨m, log, -, hτ⟩ := evaluate_ends depth τ p
    rw [hτ]
    exact ih
  | push _ ih => exact hP.push ih
  | pop _ ih => exact hP.pop ih

theorem Later.values (hQ : Steady Q) (h : Later σ τ) (hσ : Q σ.values σ.valueScope) :
    Q τ.values τ.valueScope := by
  induction h with
  | now => exact hσ
  | @analyze τ p _ ih =>
    obtain ⟨st, log, -, hτ⟩ := analyze_ends τ p
    rw [hτ]
    exact ih
  | @evaluate τ depth p _ ih =>
    obtain ⟨m, log, rfl, hτ⟩ := evaluate_ends depth τ p
    obtain ⟨_, hadds⟩ := Evaluation.keeps_evaluate depth τ.valueScope p ⟨τ.values, #[], τ.log⟩
    rw [hτ]
    exact hQ.adds ih hadds
  | push _ ih => exact hQ.push ih
  | pop _ ih => exact hQ.pop ih

end Steady

theorem Reachable.later (h : Reachable σ) :
    ∃ placement fixtures, Later (Session.start placement fixtures) σ := by
  induction h with
  | @start placement fixtures => exact ⟨placement, fixtures, .now⟩
  | analyze _ ih =>
    obtain ⟨_, _, h⟩ := ih
    exact ⟨_, _, h.analyze⟩
  | evaluate _ ih =>
    obtain ⟨_, _, h⟩ := ih
    exact ⟨_, _, h.evaluate⟩
  | push _ ih =>
    obtain ⟨_, _, h⟩ := ih
    exact ⟨_, _, h.push⟩
  | pop _ ih =>
    obtain ⟨_, _, h⟩ := ih
    exact ⟨_, _, h.pop⟩

section Sights

variable {names : List String}

/-- A program keeps the members of an object if it does not declare a name among them. -/
theorem shaped_analyze (h : τ.types.Shaped a names) (hp : SparesType a τ p) :
    (τ.analyze p).2.types.Shaped a names := by
  obtain ⟨st, log, rfl, hτ⟩ := analyze_ends τ p
  have hadds := Analysis.adds_analyze τ.typeScope p ⟨τ.types, τ.log⟩
  rw [hτ]
  refine ⟨Nat.lt_of_lt_of_le h.lt hadds.size_le, ?_⟩
  rw [← h.names_eq]
  by_cases ha : τ.typeScope = a
  · rw [Analysis.programBinds_eq_nil (hp ha)] at hadds
    exact BindingsKept.names hadds.kept |>.view_eq a h.lt
  · simpa [Forest.names, Ne.symm ha] using hadds.names.view_eq a h.lt

theorem shaped_evaluate (depth : Nat) (h : τ.values.Shaped a names) (hp : SparesValue a τ p) :
    (τ.evaluate depth p).2.values.Shaped a names := by
  obtain ⟨m, log, rfl, hτ⟩ := evaluate_ends depth τ p
  rw [hτ]
  by_cases ha : τ.valueScope = a
  · have hkept := Evaluation.keeps_evaluate_of_declared depth τ.valueScope (hp ha)
      ⟨τ.values, #[], τ.log⟩
    exact ⟨Nat.lt_of_lt_of_le h.lt hkept.size_le, (hkept.view_eq a h.lt).trans h.names_eq⟩
  · obtain ⟨_, hadds⟩ := Evaluation.keeps_evaluate depth τ.valueScope p ⟨τ.values, #[], τ.log⟩
    exact h.adds ha hadds

theorem shaped_addChild {α : Type} {f : Forest α} {s : ScopeId} (h : f.Shaped a names) :
    (f.addChild s ∅).Shaped a names :=
  ⟨by simpa using Nat.lt_succ_of_lt h.lt, (kept_addChild.view_eq a h.lt).trans h.names_eq⟩

theorem Led.types (h : Led (SparesType a) (fun _ _ => True) σ τ) (hσ : σ.types.Shaped a names) :
    τ.types.Shaped a names := by
  induction h with
  | now => exact hσ
  | analyze hp _ ih => exact shaped_analyze ih hp
  | @evaluate τ depth p _ _ ih =>
    obtain ⟨m, log, -, hτ⟩ := evaluate_ends depth τ p
    rw [hτ]
    exact ih
  | push _ ih => exact shaped_addChild ih
  | enter _ ih => exact ih

theorem Led.values (h : Led (fun _ _ => True) (SparesValue a) σ τ) (hσ : σ.values.Shaped a names) :
    τ.values.Shaped a names := by
  induction h with
  | now => exact hσ
  | @analyze τ p _ _ ih =>
    obtain ⟨st, log, -, hτ⟩ := analyze_ends τ p
    rw [hτ]
    exact ih
  | @evaluate τ depth p hp _ ih => exact shaped_evaluate depth ih hp
  | push _ ih => exact shaped_addChild ih
  | enter _ ih => exact ih

end Sights

end Session

section Shapes

open Session

end Shapes

end ObjectLang
