import ObjectLang.Proofs.Fixtures
import ObjectLang.Proofs.Typing.Session

/-!
Programs side by side. What analysis binds it binds in its own scope and in new ones, so programs
that are analysed one after another, each in a scope of its own inside a shared one, do not notice
each other.
-/

namespace ObjectLang

open Forest Bindings

/-- Scopes from before are the same in both runs, of which the second starts with some more. -/
def Pairing.shared (n m : Nat) (h : n ≤ m) : Pairing where
  old a b := a = b ∧ a < n
  left := n
  right := m
  old_lt := by
    rintro a _ ⟨rfl, ha⟩
    exact ⟨ha, Nat.lt_of_lt_of_le ha h⟩

section Shared

variable {Γ Δ : TypeScopes} {s : ScopeId} (hg : Grounded Γ s) (hkept : BindingsKept Γ Δ)
include hg hkept

theorem aligned_shared {a : ScopeId} (ha : a < Γ.size) :
    Aligned (Ty.Paired fun a b => a = b ∧ a < Γ.size) (Γ.own a) (Δ.own a) := by
  rw [hkept.own_eq ha]
  refine aligned_self fun e he => Ty.paired_self e.2 fun b hb => ⟨rfl, hg.refers_lt b ?_⟩
  exact ⟨a, e.1, e.2, find?_eq_some_iff.2 he, hb⟩

/-- From a scope that is there in both runs, all looks the same. -/
theorem twins_shared : (Pairing.shared Γ.size Δ.size hkept.size_le).Twins [] s s Γ Δ := by
  refine Pairing.twins_start (Pairing.shared _ _ hkept.size_le).old_lt ?_ hg.toPlaced
    (hg.toPlaced.grow (hkept.adds s)) (fun n _ => ?_) fun n _ => ?_
  · rintro a _ ⟨rfl, ha⟩
    exact (aligned_shared hg hkept ha).matching
  · rw [containsOwn_of_kept hg.toPlaced hkept]
  · rw [lookup_of_kept hg.toPlaced hkept]
    cases hfound : Γ.lookup s n with
    | none => exact .none
    | some t =>
      exact .some (Ty.paired_self t fun a ha => ⟨rfl, hg.refers_lt a (knows_lookup hfound a ha)⟩)

end Shared

namespace Session

variable {σ τ : Session}

/-- In a new scope, analysis tells the same as when the scopes from before were all there were. -/
theorem analysisTold_push (hg : Grounded σ.types σ.typeScope) (hkept : BindingsKept σ.types τ.types)
    (hscope : τ.typeScope = σ.typeScope) (p : Program) :
    σ.push.analysisTold p = τ.push.analysisTold p := by
  have hle := hkept.size_le
  have htwins := twins_shared hg hkept
  have hnew := htwins.toLinked.new_size (Nat.lt_succ_self _)
  have hchild : (Pairing.shared _ _ hle).Twins [] σ.push.typeScope τ.push.typeScope σ.push.types
      τ.push.types := by
    rw [push, push, hscope]
    exact htwins.addChild aligned_empty
  let N : Shift := ⟨σ.types.size, τ.types.size - σ.types.size, []⟩
  refine analysisTold_of_twins p.avoids_nil hchild (Pairing.alone_of_new hnew) N.move_injective ?_ ?_
  · rintro n a b (⟨rfl, ha⟩ | ⟨k, rfl, rfl, -⟩)
    · exact (N.move_of_lt ha).symm
    · refine Eq.trans ?_ (N.move_of_le (Nat.le_add_right σ.types.size k)).symm
      show τ.types.size + k = σ.types.size + k + (τ.types.size - σ.types.size)
      omega
  · rintro a _ ⟨rfl, ha⟩
    have hleft : (σ.types.addChild σ.typeScope ∅).own a = σ.types.own a :=
      BindingsKept.own_eq kept_addChild ha
    have hright : (τ.types.addChild τ.typeScope ∅).own a = τ.types.own a :=
      BindingsKept.own_eq kept_addChild (Nat.lt_of_lt_of_le ha hle)
    refine ⟨Nat.ne_of_lt ha, Nat.ne_of_lt (Nat.lt_of_lt_of_le ha hle), ?_⟩
    rw [push, push, hleft, hright]
    exact (aligned_shared hg hkept ha).mono fun _ _ h => h.imp fun _ _ => Or.inl

/-- A program that has had a scope of its own leaves the shared ones as they were. -/
theorem kept_apart (τ : Session) (p : Program) :
    BindingsKept τ.types (τ.push.analyze p).2.pop.types ∧
      (τ.push.analyze p).2.pop.typeScope = τ.typeScope := by
  obtain ⟨_, hadds⟩ := Analysis.keeps_analyze τ.push.typeScope p ⟨τ.push.types, τ.push.log⟩
  rw [← analyze_types] at hadds
  have hparent : (τ.push.analyze p).2.types.parent? τ.types.size = some τ.typeScope := by
    rw [parent?, hadds.outer_eq _ (by simp [push]), push, outer_addChild, if_pos rfl]
    rfl
  refine ⟨kept_addChild.trans_adds_new (Nat.le_refl _) hadds, ?_⟩
  rw [pop, analyze_typeScope]
  exact congrArg (Option.getD · τ.types.size) hparent

/-- What is told of programs that are analysed one after another, each in new scopes inside the
current ones. -/
def analyzeEach (σ : Session) : List Program →
    List (Except (AnalysisErrorKind × String × Option TySnapshot × Option TySnapshot)
      (Typed.Program TySnapshot))
  | [] => []
  | p :: ps => σ.push.analysisTold p :: (σ.push.analyze p).2.pop.analyzeEach ps

theorem analyzeEach_eq (hg : Grounded σ.types σ.typeScope) (ps : List Program)
    (hkept : BindingsKept σ.types τ.types) (hscope : τ.typeScope = σ.typeScope) :
    τ.analyzeEach ps = ps.map σ.push.analysisTold := by
  induction ps generalizing τ with
  | nil => rfl
  | cons p ps ih =>
    obtain ⟨hkept', hscope'⟩ := τ.kept_apart p
    rw [analyzeEach, ih (hkept.trans hkept') (hscope'.trans hscope),
      ← analysisTold_push hg hkept hscope p, List.map_cons]

/-- An object that has been analysed, and a variable that is then declared among its members. The type
of the object gets a member that the object does not have. -/
theorem object_gains_member : Analysis.solitary.scopes.Refers 1 ∧
    Analysis.solitary.scopes.names 1 = ["this"] ∧
    (finalState (Analysis.analyze 1 (.stmt (.letStmt (.mk "z" none (some (.literal (.integer 1))))))
      Analysis.solitary)).scopes.names 1 = ["this", "z"] := by
  refine ⟨⟨1, "this", .object 1, by cbv, List.mem_singleton.2 rfl⟩, by cbv, by cbv⟩

/-- In all states and however it ends, analysis changes no binding and binds no more than what is
declared. An expression binds nothing. The statements of a block bind in its scope, one after the
other and up to the first that fails, the variables that are defined and the functions that are
declared, a function also when its body fails; no scope from before but that one gets a name, and so
no object type gets a member that has not got that scope for its members. The scopes that sessions
work in are not the members of an object type that has been found by then. Programs that are analysed
one after another, each in new scopes inside the same ones, get what each of them gets alone. -/
theorem analysis_binds_declared_only :
    (∀ s e st, BindingsKept st.scopes (finalState (Analysis.analyzeExpr s e st)).scopes) ∧
    (∀ s returns stmt st, AddsEntries s (Analysis.stmtBinds s st stmt) st.scopes
      (finalState (Analysis.analyzeStmt s returns stmt st)).scopes) ∧
    (∀ s returns stmts st, AddsEntries s (Analysis.blockBinds s returns st stmts) st.scopes
      (finalState (Analysis.analyzeBlock s returns stmts st)).scopes) ∧
    (∀ s p st, AddsEntries s (Analysis.programBinds s st p) st.scopes
      (finalState (Analysis.analyze s p st)).scopes) ∧
    (∀ s p st, ∀ a < st.scopes.size, a ≠ s →
      (finalState (Analysis.analyze s p st)).scopes.own a = st.scopes.own a) ∧
    (∀ σ : Session, Grounded σ.types σ.typeScope →
      ∀ ps, σ.analyzeEach ps = ps.map σ.push.analysisTold) ∧
    (∀ σ : Session, σ.Reachable →
      (∀ p a, σ.types.Refers a → (σ.analyze p).2.types.own a = σ.types.own a) ∧
      ∀ ps, σ.analyzeEach ps = ps.map σ.push.analysisTold) ∧
    ∀ fixtures ps, (start .root fixtures).analyzeEach ps =
      ps.map (start .child fixtures).analysisTold := by
  have hothers (s : ScopeId) (p : Program) (st : Analysis.State) (a : ScopeId)
      (ha : a < st.scopes.size) (has : a ≠ s) :
      (finalState (Analysis.analyze s p st)).scopes.own a = st.scopes.own a :=
    (Analysis.adds_analyze s p st).own_eq ha has
  have hapart (σ : Session) (hg : Grounded σ.types σ.typeScope) (ps : List Program) :
      σ.analyzeEach ps = ps.map σ.push.analysisTold :=
    analyzeEach_eq hg ps (.refl _ σ.types) rfl
  have hopen {σ : Session} (hσ : σ.Reachable) : Open σ.types σ.typeScope := hσ.openChain.isOpen
  refine ⟨fun s e => Analysis.keeps_analyzeExpr s e, Analysis.adds_analyzeStmt,
    Analysis.adds_analyzeBlock, Analysis.adds_analyze, hothers, hapart,
    fun σ hσ => ⟨fun p a ha => ?_, hapart σ (hopen hσ).toGrounded⟩,
    fun fixtures => hapart _ (hopen .start).toGrounded⟩
  rw [analyze_types]
  refine hothers _ p ⟨σ.types, σ.log⟩ a ((hopen hσ).refers_lt a ha) ?_
  rintro rfl
  exact (hopen hσ).not_refers ha

/-- A variable, a function with a body that fails, and another variable. -/
def halfway : Program :=
  .source [.letStmt (.mk "a" none (some (.literal (.integer 1)))),
    .defStmt (.mk "f" ["x"] [none] none [.exprStmt (.var "b")]), .letStmt (.mk "c" none none)]

/-- The last variable is not bound, and who comes next to the program does not see the others. -/
theorem analysis_binds_declared_only_halfway :
    (start .root true).Reachable ∧
    Grounded (start .root true).types (start .root true).typeScope ∧
    ((start .child true).analyze halfway).2.typeNames = ["a", "f"] ∧
    (start .root true).analyzeEach [halfway, .expr (.var "a"), halfway] =
      [halfway, .expr (.var "a"), halfway].map (start .root true).push.analysisTold ∧
    ((start .root true).push.analyze (.expr (.var "a"))).1.toBool = false := by
  obtain ⟨-, -, -, hprogram, -, heach, -⟩ := analysis_binds_declared_only
  have hadds := hprogram 2 halfway ⟨(start .child true).types, (start .child true).log⟩
  have hbinds : (Analysis.programBinds 2
      ⟨(start .child true).types, (start .child true).log⟩ halfway).map Prod.fst = ["a", "f"] := by
    cbv
  have hempty : (start .child true).types.names 2 = [] := by decide
  have hview := hadds.names.view_eq 2 (by decide)
  rw [if_pos rfl, hbinds] at hview
  have hg : Grounded (start .root true).types (start .root true).typeScope :=
    (openChain_prelude true).isOpen.toGrounded
  refine ⟨.start, hg, ?_, heach _ hg _, by cbv⟩
  rw [typeNames, analyze_typeScope, analyze_types]
  exact hview.trans (congrArg (· ++ ["a", "f"]) hempty)

end Session

end ObjectLang
