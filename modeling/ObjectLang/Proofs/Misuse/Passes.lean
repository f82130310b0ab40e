import ObjectLang.Proofs.Misuse.Analysis
import ObjectLang.Proofs.Misuse.Evaluation

/-!
Neither pass misuses a scope. That a run does not end with such an error says that no step of it does,
so each name that is defined is new to its scope at that moment, and each name that is assigned to has
an owner.
-/

namespace ObjectLang

section Analysis

open Analysis

variable {s t : ScopeId} {p : Program} {st st' : State} {name : String} {type : Ty}

theorem analyze_ne_scope (hs : s < st.scopes.size) (e : ScopeError) :
    analyze s p st ≠ .error (.scope e) st' :=
  fun h => (proper_analyze s p).of_reaches hs .here h rfl

theorem not_mem_names_of_analysis (hs : s < st.scopes.size)
    (h : Reaches (define t name type) st' (analyze s p) st) : name ∉ st'.scopes.names t := by
  intro hn
  have hy : define t name type st' = .error (.scope (.alreadyDefined name)) st' := by
    rw [define_apply, if_pos (Forest.containsOwn_iff.2 hn)]
  exact (proper_analyze s p).of_reaches hs h hy rfl

end Analysis

section Evaluation

open Evaluation

variable {depth : Nat} {s t : ScopeId} {p : Program} {m m' : Machine} {name : String} {v : Value}

theorem evaluate_ne_scope (hs : s < m.scopes.size) (e : ScopeError) :
    evaluate depth s p m ≠ .error (.error (.scope e)) m' :=
  fun h => (proper_evaluate depth s p).of_reaches hs .here h rfl

theorem not_mem_names_of_evaluation (hs : s < m.scopes.size)
    (h : Reaches (define t name v) m' (evaluate depth s p) m) : name ∉ m'.scopes.names t := by
  intro hn
  have hy : define t name v m' = .error (.error (.scope (.alreadyDefined name))) m' := by
    rw [define_apply, if_pos (Forest.containsOwn_iff.2 hn)]
  exact (proper_evaluate depth s p).of_reaches hs h hy rfl

theorem exists_owner_of_evaluation (hs : s < m.scopes.size)
    (h : Reaches (assign t name v) m' (evaluate depth s p) m) :
    ∃ o, m'.scopes.owner? t name = some o := by
  cases ho : m'.scopes.owner? t name with
  | some o => exact ⟨o, rfl⟩
  | none =>
    have hy : assign t name v m' = .error (.error (.scope (.notDefined name))) m' := by
      rw [assign_apply, ho]
    exact ((proper_evaluate depth s p).of_reaches hs h hy rfl).elim

end Evaluation

/-- Whatever the program and the scopes, and however the run ends, neither pass ends with the misuse of
a scope, defines a name that the scope has at that moment, or assigns to a name that has no owner. This
includes the scopes that are opened with names in them, such as parameters: they could as well be
opened empty, to define the names one after another. -/
theorem scopes_never_misused :
    (∀ s p st, s < st.scopes.size →
      (∀ e st', Analysis.analyze s p st ≠ .error (.scope e) st') ∧
      ∀ t name type st', Reaches (Analysis.define t name type) st' (Analysis.analyze s p) st →
        name ∉ st'.scopes.names t) ∧
    (∀ depth s p m, s < m.scopes.size →
      (∀ e m', Evaluation.evaluate depth s p m ≠ .error (.error (.scope e)) m') ∧
      (∀ t name v m', Reaches (Evaluation.define t name v) m' (Evaluation.evaluate depth s p) m →
        name ∉ m'.scopes.names t) ∧
      ∀ t name v m', Reaches (Evaluation.assign t name v) m' (Evaluation.evaluate depth s p) m →
        ∃ o, m'.scopes.owner? t name = some o) ∧
    (∀ parent own, Analysis.openChild parent own = (do
      let inner ← Analysis.openChild parent ∅
      forM own.entries fun e => Analysis.define inner e.1 e.2
      return inner)) ∧
    (∀ parent own, Evaluation.openChild parent own = (do
      let inner ← Evaluation.openChild parent ∅
      forM own.entries fun e => Evaluation.define inner e.1 e.2
      return inner)) ∧
    (∀ s d sig st st', Analysis.declareFunction s d st = .ok sig st' →
      Analysis.DefinesParams d sig) ∧
    ∀ members ds sigs st st', Analysis.declareMethods members ds st = .ok sigs st' →
      List.Forall₂ Analysis.DefinesParams ds sigs := by
  refine ⟨fun s p st hs => ⟨fun e _ => analyze_ne_scope hs e, fun _ _ _ _ => ?_⟩,
    fun depth s p m hs => ⟨fun e _ => evaluate_ne_scope hs e, fun _ _ _ _ => ?_, fun _ _ _ _ => ?_⟩,
    Analysis.openChild_eq_defines, Evaluation.openChild_eq_defines, fun s d sig st st' h => ?_,
    fun members ds sigs st st' h => ?_⟩
  · exact not_mem_names_of_analysis hs
  · exact not_mem_names_of_evaluation hs
  · exact exists_owner_of_evaluation hs
  · exact Analysis.definesParams_of_signature (Analysis.declareFunction_eq_ok.1 h).2.1
  · exact (Analysis.declareMethods_ok h).1.imp fun _ _ => Analysis.definesParams_of_signature

/-- Defines a name and assigns to it. -/
def recount : Program :=
  .source [.letStmt (.mk "n" none (some (.literal (.integer 1)))),
    .assignStmt (.var "n") (.literal (.integer 2))]

/-- One scope without names. -/
def oneScope : Machine := ⟨(∅ : ValueScopes).addRoot ∅, #[], #[]⟩

/-- One scope with a name. -/
def oneName : Machine := { oneScope with scopes := oneScope.scopes.insert 0 "n" (.integer 1) }

theorem scopes_never_misused_recount :
    (Reaches (Evaluation.define 0 "n" (.integer 1)) oneScope (Evaluation.evaluate 2 0 recount) oneScope ∧
      "n" ∉ oneScope.scopes.names 0) ∧
    Reaches (Evaluation.assign 0 "n" (.integer 2)) oneName (Evaluation.evaluate 2 0 recount) oneScope ∧
      ∃ o, oneName.scopes.owner? 0 "n" = some o := by
  have hfresh : Evaluation.requireFresh 0 "n" oneScope = .ok () oneScope := rfl
  have hone : Evaluation.evalExpr 1 0 (.literal (.integer 1)) oneScope = .ok (.integer 1) oneScope := rfl
  have hbound : Evaluation.requireBound 0 "n" oneName = .ok () oneName := rfl
  have htwo : Evaluation.evalExpr 1 0 (.literal (.integer 2)) oneName =
      .ok (.integer 2) oneName := rfl
  have hfirst : Evaluation.execStmt 2 0 (.letStmt (.mk "n" none (some (.literal (.integer 1)))))
      oneScope = .ok (.normal (.integer 1)) oneName := rfl
  have hdefine : Reaches (Evaluation.define 0 "n" (.integer 1)) oneScope
      (Evaluation.evaluate 2 0 recount) oneScope :=
    .first (.first (.first (.next hfresh (.next hone (.first .here)))))
  have hassign : Reaches (Evaluation.assign 0 "n" (.integer 2)) oneName
      (Evaluation.evaluate 2 0 recount) oneScope :=
    .first (.next hfirst (.first (.next hbound (.next htwo (.first .here)))))
  obtain ⟨-, hnew, howner⟩ := scopes_never_misused.2.1 2 0 recount oneScope (by decide)
  exact ⟨⟨hdefine, hnew 0 "n" _ _ hdefine⟩, hassign, howner 0 "n" _ _ hassign⟩

end ObjectLang
