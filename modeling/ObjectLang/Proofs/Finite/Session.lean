import ObjectLang.Proofs.Finite.Evaluation
import ObjectLang.Proofs.Resolution.Session

/-!
Programs without assignments, run in a new scope inside the outermost one. An object can hold only
what was there before it was complete, so at no moment of the run does a value hold itself.
-/

namespace ObjectLang

open Forest

namespace Prelude

/-- A value among the outermost ones in which there is nothing, unless it is the object. -/
def plain (fixtures : Bool) : Value → Bool
  | .function (.native _) | .list [] => true
  | .function _ | .list _ => false
  | .object _ members => fixtures && members = fixtureMembers
  | _ => true

theorem plain_values {fixtures : Bool} {t : ScopeId} {name : String} {v : Value}
    (hv : (values fixtures).lookupOwn t name = some v) :
    plain (fixtures && t = root) v = true := by
  have hall : ∀ t < (values fixtures).size, ∀ e ∈ ((values fixtures).own t).entries,
      plain (fixtures && t = root) e.2 = true := by
    cases fixtures <;> decide
  have ht : t < (values fixtures).size :=
    lt_size_of_mem_names (Bindings.mem_names_iff.2 ⟨v, hv⟩)
  exact hall t ht (name, v) (Bindings.find?_eq_some_iff.1 hv)

theorem whole_of_plain {live : List ScopeId} {Γ : ValueScopes} {v : Value}
    (h : plain false v = true) : v.Whole live Γ := by
  cases v with
  | function f =>
    cases f with
    | native f => exact Value.whole_function trivial
    | _ => cases h
  | list items =>
    cases items with
    | nil => exact Value.whole_list fun _ hv => nomatch hv
    | cons item items => cases h
  | object name members => cases h
  | _ => exact Value.whole_of_flat trivial

/-- The object among the fixtures is the only one, and its members are no objects. -/
theorem working_prelude (fixtures : Bool) : Working [root] root (values fixtures) := by
  have hroot : root < (values fixtures).size := (placed_prelude fixtures).2.own_lt
  refine ⟨List.mem_singleton_self _, fun t ht => List.mem_singleton.1 ht ▸ hroot, fun t name v hv => ?_⟩
  have hplain := plain_values hv
  by_cases hflat : plain false v = true
  · exact whole_of_plain hflat
  · cases v with
    | object n members =>
      simp only [plain, Bool.and_eq_true, decide_eq_true_eq] at hplain
      obtain ⟨⟨rfl, -⟩, rfl⟩ := hplain
      refine .mk ⟨by decide, by decide⟩ ?_
      rintro w ⟨m, hw⟩
      exact whole_of_plain (plain_values hw)
    | function f => cases f <;> exact absurd hplain hflat
    | list items => cases items <;> exact absurd hplain hflat
    | _ => exact absurd hplain hflat

/-- In a new scope inside the outermost one, too, all values are whole. -/
theorem working_start (fixtures : Bool) :
    Working [(values fixtures).size, root] (values fixtures).size
      ((values fixtures).addChild root ∅) :=
  (working_prelude fixtures).addChild Value.whole_noEntries root

end Prelude

namespace Evaluation

/-- A value is there after several moments of a run: it is bound to a name, an expression has got it by
then, or it is in a value that is there. -/
inductive Present (m : Machine) (ks : List Moment) : Value → Prop where
  | bound {t name v} : (after m ks).scopes.lookupOwn t name = some v → Present m ks v
  | valued {s path e v} : .valued s path e v ∈ ks → Present m ks v
  | inside {v w} : Present m ks v → Value.Inside (after m ks).scopes w v → Present m ks w

variable {live : List ScopeId} {m m' : Machine} {before ks : List Moment} {v : Value}

/-- What is there at a moment that a run passes is whole. -/
theorem Passes.whole_of_present (h : Passes live m ks m') (hb : before <+: ks)
    (hv : Present m before v) : v.Whole [] (after m before).scopes := by
  induction hv with
  | bound hv => exact h.bound before hb _ _ _ hv
  | valued he => exact h.held before hb _ (Or.inr ⟨_, _, _, he⟩)
  | inside _ hw ih => exact ih.inside hw

end Evaluation

namespace Session

open Evaluation

variable {p : Program}

theorem builds_start (fixtures : Bool) (depth : Nat) (hp : p.AssignmentFree) :
    let σ := start .child fixtures
    Builds [(Prelude.values fixtures).size, Prelude.root] σ.valueScope
      (Gives [(Prelude.values fixtures).size, Prelude.root])
      (Evaluation.watch depth σ.valueScope p) ⟨σ.values, #[], σ.log⟩ :=
  builds_watch depth (Prelude.working_start fixtures) hp

/-- In a run of a program that contains no assignment, every value that is there at any moment comes
to an end: from a value to an item of a list or to a member of an object there are only so many steps
to go. So every such value has a text and can be compared with any value, the run never ends because
one has not, and what it ends with is such a value, too. (`Value.inspect` needs no end: it shows the
names of members only.) -/
theorem assignmentFree_values_end (fixtures : Bool) (depth : Nat) (hp : p.AssignmentFree) :
    let σ := start .child fixtures
    let m : Machine := ⟨σ.values, #[], σ.log⟩
    (∀ ks, ks <+: σ.moments depth p → ∀ v, Present m ks v → v.Finite (after m ks).scopes) ∧
    (after m (σ.moments depth p)).scopes = (σ.evaluate depth p).2.values ∧
    (σ.evaluate depth p).1.result ≠ .error .endless ∧
    ∀ v, (σ.evaluate depth p).1.result = .ok v → v.Finite (σ.evaluate depth p).2.values := by
  intro σ m
  obtain ⟨hpasses, -, -, hends⟩ := builds_start fixtures depth hp
  rw [run_watch] at hpasses hends
  have hlast : (after m (σ.moments depth p)).scopes = (σ.evaluate depth p).2.values := by
    obtain ⟨_, _, rfl, hτ⟩ := evaluate_ends depth σ p
    rw [hτ]
    exact congrArg Machine.scopes hpasses.after_eq
  have hresult : (σ.evaluate depth p).1.result ≠ .error .endless ∧
      ∀ v, (σ.evaluate depth p).1.result = .ok v → v.Whole [] (σ.evaluate depth p).2.values := by
    unfold Session.evaluate
    split
    · next v m' hr =>
      rw [hr] at hends
      refine ⟨nofun, ?_⟩
      rintro _ ⟨⟩
      exact hends.ever
    · next e m' hr =>
      rw [hr] at hends
      exact ⟨fun he => hends (Except.error.inj he), nofun⟩
  exact ⟨fun ks hks v hv => Value.finite_of_acc (hpasses.whole_of_present hks hv).acc, hlast,
    hresult.1, fun v hv => Value.finite_of_acc (hresult.2 v hv).acc⟩

/-- An object whose method gives the object itself is held twice by another one. -/
def family : Program :=
  .source [.letStmt (.mk "parent" none (some (.object none
      [.mk "child" none (some (.object (some "Child") []
          [.mk "self" [] [] none [.returnStmt (some (.var "this"))]])),
        .mk "same" none (some (.methodCall (.var "child") "self" []))] []))),
    .exprStmt (.call "list" [.var "parent", .property (.var "parent") "same"])]

theorem assignmentFree_values_end_family :
    let σ := start .child true
    let m : Machine := ⟨σ.values, #[], σ.log⟩
    family.AssignmentFree ∧
    (∀ ks, ks <+: σ.moments 20 family → ∀ v, Present m ks v → v.Finite (after m ks).scopes) ∧
    ∃ v, (σ.evaluate 20 family).1.result = .ok v ∧ v.Finite (σ.evaluate 20 family).2.values := by
  have hfree : family.AssignmentFree := by
    simp [Program.AssignmentFree, family, Stmt.AssignmentFree, Stmt.IsAssignment, NoAssignments]
  have hok {r : Except Fault Value} (h : r.toBool = true) : ∃ v, r = .ok v := by
    cases r with
    | error e => cases h
    | ok v => exact ⟨v, rfl⟩
  obtain ⟨hmoments, -, -, hresult⟩ := assignmentFree_values_end true 20 hfree
  have hruns : ((start .child true).evaluate 20 family).1.result.toBool = true := by cbv
  obtain ⟨v, hv⟩ := hok hruns
  exact ⟨hfree, hmoments, v, hv, hresult v hv⟩

end Session

end ObjectLang
