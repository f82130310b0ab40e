import ObjectLang.Proofs.Elementary.Evaluation
import ObjectLang.Proofs.Evaluation.Depth
import ObjectLang.Proofs.Finite.Session

/-!
Elementary programs in a new scope inside the outermost one. They end with a value or with an error, at
every depth that is not below the height of their trees, and always in the same way.
-/

namespace ObjectLang

open Forest Evaluation

namespace Prelude

theorem closures_of_plain {fixtures : Bool} {v : Value} (h : plain fixtures v = true) :
    Evaluation.Plain v := by
  cases v with
  | function f =>
    cases f with
    | native f => rfl
    | _ => cases h
  | list items =>
    cases items with
    | nil => rfl
    | cons item items => cases h
  | _ => rfl

theorem engaged_prelude (fixtures : Bool) : Engaged [root] root (values fixtures) where
  toWorking := working_prelude fixtures
  chain_mem := by cases fixtures <;> decide
  plain _ _ _ hv := closures_of_plain (plain_values hv)

/-- A run in a new scope inside the outermost one is at work in both. -/
theorem engaged_start (fixtures : Bool) :
    Engaged [(values fixtures).size, root] (values fixtures).size
      ((values fixtures).addChild root ∅) :=
  (engaged_prelude fixtures).addChild Value.simple_noEntries

end Prelude

namespace Session

/-- A program that defines no functions, also none as methods, and assigns to no members comes to an
end, with a value or with an error of the program. Its run nests no deeper than its tree is high,
however many items its loops run over: at every depth from this height on, the outcome is the same, and
so is what is left behind. A value that it ends with comes to an end itself. -/
theorem elementary_ends (fixtures : Bool) {p : Program} (hp : p.Elementary) : ∃ outcome σ',
    (∀ depth ≥ p.height, (start .child fixtures).evaluate depth p = (outcome, σ')) ∧
      ((∃ v, outcome.result = .ok v ∧ v.Finite σ'.values) ∨
        ∃ e, outcome.result = .error (.error e)) := by
  let σ := start .child fixtures
  let m : Machine := ⟨σ.values, #[], σ.log⟩
  have hends : Finishes _ σ.valueScope (Yields _) (Evaluation.evaluate p.height σ.valueScope p) m :=
    finishes_evaluate (Prelude.engaged_start fixtures) hp (Nat.le_refl _)
  have hdeep (m') : Evaluation.evaluate p.height σ.valueScope p m ≠ .error .tooDeep m' := by
    intro h
    rw [Finishes, h] at hends
    exact hends
  refine ⟨(σ.evaluate p.height p).1, (σ.evaluate p.height p).2, fun depth hdepth => ?_, ?_⟩
  · show σ.evaluate depth p = σ.evaluate p.height p
    rw [Session.evaluate, evaluate_of_le hdeep hdepth, Session.evaluate]
  · rw [Finishes] at hends
    unfold Session.evaluate
    split
    · next v m' hr =>
      rw [hr] at hends
      exact .inl ⟨v, rfl, Value.finite_of_acc hends.2.2.whole.acc⟩
    · next e m' hr =>
      rw [hr] at hends
      cases e with
      | error e => exact .inr ⟨e, rfl⟩
      | tooDeep | endless => exact hends.elim

/-- `LET row = list(OBJECT Point x = 1 END); FOR i IN range(0, 1000) DO IF i == 7 DO row = list(i); ELSE
row = list(row, i); END END print(row);` -/
def nestedLists : Program :=
  .source [.letStmt (.mk "row" none (some (.call "list"
      [.object (some "Point") [.mk "x" none (some (.literal (.integer 1)))] []]))),
    .forStmt "i" (.call "range" [.literal (.integer 0), .literal (.integer 1000)])
      [.ifStmt (.binary "==" (.var "i") (.literal (.integer 7)))
        [.assignStmt (.var "row") (.call "list" [.var "i"])]
        [.assignStmt (.var "row") (.call "list" [.var "row", .var "i"])]],
    .exprStmt (.call "print" [.var "row"])]

theorem elementary_ends_nestedLists :
    nestedLists.Elementary ∧ nestedLists.height = 5 ∧ ∃ outcome σ',
      (∀ depth ≥ nestedLists.height,
        (start .child false).evaluate depth nestedLists = (outcome, σ')) ∧
      ((∃ v, outcome.result = .ok v ∧ v.Finite σ'.values) ∨
        ∃ e, outcome.result = .error (.error e)) := by
  have helementary : nestedLists.Elementary := by
    simp [Program.Elementary, nestedLists, Stmt.Elementary, Stmt.IsElementary, Expr.NoMethods,
      ElementaryBlock]
  exact ⟨helementary, rfl, elementary_ends false helementary⟩

end Session

end ObjectLang
