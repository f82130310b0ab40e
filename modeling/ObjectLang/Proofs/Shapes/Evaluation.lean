import Mathlib.Data.List.Forall2
import ObjectLang.Proofs.Evaluation.Frame
import ObjectLang.Proofs.Resolution.Trace
import ObjectLang.Proofs.Shapes.Sights

/-!
The members of object values. They are the fields and the methods of the literal in the order of their
declaration, in a scope that nothing is around, and whatever is evaluated after the literal leaves the
object these members, be it that some of them get other values.
-/

namespace ObjectLang.Evaluation

open Forest

variable {α β : Type} {s members : ScopeId} {m m' : Machine} {d : DefDecl}

section Shape

end Shape

/-- What can be seen at a moment: an object that is complete, or the scopes, if they are noted. -/
def Moment.sight? : Moment → Option (Sight Value)
  | .valued _ _ (.object _ fields methods) (.object _ members) =>
    some (.object members (fields.map LetDecl.name ++ methods.map DefDecl.name))
  | k => k.machine?.map fun m => .scopes m.scopes

/-- What can be seen of a run, one thing after another. -/
def Watched.sights (w : Watched α) (m : Machine) : List (Sight Value) :=
  (w.moments m).filterMap Moment.sight?

/-! Runs from scopes with `s` among them. -/

/-- A run keeps the objects that it completes as they are. -/
def Endures (s : ScopeId) {α : Type} (w : Watched α) : Prop :=
  ∀ m, s < m.scopes.size → Enduring [] s m.scopes (w.sights m) (finalState (w.run m)).scopes

section Endures

variable {w : Watched α} {g : α → Watched β} {x : EvalM α} {moment : Machine → Moment}

theorem Endures.bind (hw : Endures s w) (hg : ∀ a, Endures s (g a)) : Endures s (w >>= g) := by
  intro m hs
  have h := hw m hs
  show Enduring _ s m.scopes ((w.moments m ++ _).filterMap _) _
  rw [run_bind, bind_apply, List.filterMap_append]
  cases hr : w.run m with
  | ok a m' =>
    rw [hr] at h
    obtain ⟨_, hadds⟩ := h.adds
    exact h.append hs (hg a m' (Nat.lt_of_lt_of_le hs hadds.size_le))
  | error e m' =>
    rw [hr] at h
    rw [List.filterMap_nil, List.append_nil]
    exact h

theorem Endures.step (hx : Keeps (AddsTo s) x) : Endures s (Evaluation.step x) := by
  intro m _
  obtain ⟨_, hadds⟩ := hx m
  exact enduring_step hadds

/-- What is done in a new scope does not matter outside. -/
theorem endures_openChild {t : ScopeId} {own : Bindings Value} {k : ScopeId → Watched α}
    (hk : ∀ inner, Endures inner (k inner)) : Endures s (step (openChild t own) >>= k) := by
  intro m _
  have hkept : NamesKept m.scopes (m.scopes.addChild t own) := kept_addChild
  have hin := hk m.scopes.size { m with scopes := m.scopes.addChild t own } (by simp)
  exact .scopes (hkept.adds s) (hin.inside hkept (Nat.le_refl _))

/-- What is valued is an object that is complete, or nothing is seen. -/
theorem sight_valued (t : ScopeId) (path : Path) (e : Expr) (v : Value) :
    (Moment.valued t path e v).sight? = none ∨
      ∃ a declared, (Moment.valued t path e v).sight? = some (.object a declared) := by
  unfold Moment.sight?
  split
  · exact Or.inr ⟨_, _, rfl⟩
  · exact Or.inl rfl

theorem sights_noting {t : ScopeId} {path : Path} {e : Expr} {w : Watched Value} {v : Value}
    (h : w.run m = .ok v m') : (noting t path e w).sights m =
      w.sights m ++ [Moment.valued t path e v].filterMap Moment.sight? := by
  rw [Watched.sights, Watched.sights, ← List.filterMap_append]
  show (w.moments m ++ _).filterMap _ = _
  rw [h]
  rfl

/-- An object that is made by the run before has all its members by then. -/
theorem Endures.noting {t : ScopeId} {path : Path} {e : Expr} {w : Watched Value} (hw : Endures s w)
    (he : ∀ m v m', w.run m = .ok v m' → ∀ a declared,
      (Moment.valued t path e v).sight? = some (.object a declared) →
        m.scopes.size ≤ a ∧ m'.scopes.Shaped a declared) :
    Endures s (Evaluation.noting t path e w) := by
  intro m hs
  have h := hw m hs
  rw [run_noting]
  cases hr : w.run m with
  | error e m' =>
    rw [hr] at h
    show Enduring _ s m.scopes ((w.moments m ++ _).filterMap _) _
    rw [hr, List.append_nil]
    exact h
  | ok v m' =>
    rw [hr] at h
    rw [sights_noting hr]
    obtain hsight | ⟨a, declared, hsight⟩ := sight_valued t path e v
    · rw [List.filterMap_cons_none hsight, List.filterMap_nil, List.append_nil]
      exact h
    · rw [List.filterMap_cons_some hsight, List.filterMap_nil]
      obtain ⟨ha, hshaped⟩ := he m v m' hr a declared hsight
      exact h.complete ha (by rwa [List.append_nil])

end Endures

end ObjectLang.Evaluation
