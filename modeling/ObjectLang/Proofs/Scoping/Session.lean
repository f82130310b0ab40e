import Mathlib
import ObjectLang.Proofs.Scoping.Analysis
import ObjectLang.Proofs.Scoping.Evaluation
import ObjectLang.Proofs.Session

/-!
Sessions in which every program so far has been accepted and has come to its end. The scopes of types
and the scopes of values then have the same names, one by one, up to the outermost scopes, where
there are values for all types. So whatever analysis accepts next does not fail because of names.
-/

namespace ObjectLang

open Forest

/-- The scopes inside a starting scope have the same names in both passes, and so has the starting
scope itself; around it, every name that has a type has a value. -/
inductive Alike (Γ : TypeScopes) (f : ValueScopes) : Nat → ScopeId → ScopeId → Prop where
  | start {t u} : Placed Γ t → Placed f u → Γ.names t = f.names u →
      (∀ n ∈ Γ.namesAround t, n ∈ f.namesAround u) → Alike Γ f 0 t u
  | inner {n t u t' u'} : Placed Γ t → Placed f u → Γ.names t = f.names u →
      Γ.outer t = Γ.chain t' → f.outer u = f.chain u' → Alike Γ f n t' u' → Alike Γ f (n + 1) t u

section Alike

variable {Γ Γ' : TypeScopes} {f f' : ValueScopes} {n : Nat} {t u r r' : ScopeId}
  {added : List String}

theorem Alike.placed (h : Alike Γ f n t u) : Placed Γ t ∧ Placed f u := by
  cases h with
  | start ht hu => exact ⟨ht, hu⟩
  | inner ht hu => exact ⟨ht, hu⟩

theorem Alike.names_eq (h : Alike Γ f n t u) : Γ.names t = f.names u := by
  cases h with
  | start _ _ hn => exact hn
  | inner _ _ hn => exact hn

theorem Alike.around (h : Alike Γ f n t u) : ∀ name ∈ Γ.namesAround t, name ∈ f.namesAround u := by
  induction h with
  | start _ _ _ ha => exact ha
  | @inner n t u t' u' _ _ _ ht hu h ih =>
    rw [namesAround, namesAround, ht, hu]
    show ∀ name ∈ Γ.namesFrom t', name ∈ f.namesFrom u'
    intro name hn
    rcases List.mem_append.1 hn with hn | hn
    · exact List.mem_append_left _ (h.names_eq ▸ hn)
    · exact List.mem_append_right _ (ih name hn)

/-- Newer scopes may get whatever names. -/
theorem Alike.keep {added' : List String} (h : Alike Γ f n t u) (hΓ : AddsNames r added Γ Γ')
    (hf : AddsNames r' added' f f') (ht : t < r) (hu : u < r') : Alike Γ' f' n t u := by
  induction h with
  | @start t u hpt hpu hn ha =>
    refine .start (hpt.grow hΓ) (hpu.grow hf) ?_ ?_
    · rw [names_of_adds_lt hpt hΓ ht, names_of_adds_lt hpu hf hu, hn]
    · rw [namesAround_of_adds_le hpt hΓ (Nat.le_of_lt ht),
        namesAround_of_adds_le hpu hf (Nat.le_of_lt hu)]
      exact ha
  | @inner n t u t' u' hpt hpu hn hot hou h ih =>
    have ht' : t' < t := hpt.outer_lt t' (hot ▸ List.mem_cons_self ..)
    have hu' : u' < u := hpu.outer_lt u' (hou ▸ List.mem_cons_self ..)
    refine .inner (hpt.grow hΓ) (hpu.grow hf) ?_ ?_ ?_
      (ih (Nat.lt_trans ht' ht) (Nat.lt_trans hu' hu))
    · rw [names_of_adds_lt hpt hΓ ht, names_of_adds_lt hpu hf hu, hn]
    · rw [hΓ.outer_eq t hpt.own_lt, hot, chain_of_adds h.placed.1 hΓ]
    · rw [hf.outer_eq u hpu.own_lt, hou, chain_of_adds h.placed.2 hf]

/-- The current scopes get the same names. -/
theorem Alike.grow (h : Alike Γ f n t u) (hΓ : AddsNames t added Γ Γ')
    (hf : AddsNames u added f f') : Alike Γ' f' n t u := by
  obtain ⟨hpt, hpu⟩ := h.placed
  have hn : Γ'.names t = f'.names u := by
    rw [names_of_adds hpt hΓ, names_of_adds hpu hf, h.names_eq]
  cases h with
  | start _ _ _ ha =>
    refine .start (hpt.grow hΓ) (hpu.grow hf) hn ?_
    rwa [namesAround_of_adds hpt hΓ, namesAround_of_adds hpu hf]
  | @inner n _ _ t' u' _ _ _ hot hou h =>
    have ht' : t' < t := hpt.outer_lt t' (hot ▸ List.mem_cons_self ..)
    have hu' : u' < u := hpu.outer_lt u' (hou ▸ List.mem_cons_self ..)
    refine .inner (hpt.grow hΓ) (hpu.grow hf) hn ?_ ?_ (h.keep hΓ hf ht' hu')
    · rw [hΓ.outer_eq t hpt.own_lt, hot, chain_of_adds h.placed.1 hΓ]
    · rw [hf.outer_eq u hpu.own_lt, hou, chain_of_adds h.placed.2 hf]

/-- Both passes start in new scopes. -/
theorem Alike.ofChild (hΓ : Placed Γ t) (hf : Placed f u)
    (h : ∀ name ∈ Γ.namesFrom t, name ∈ f.namesFrom u) :
    Alike (Γ.addChild t ∅) (f.addChild u ∅) 0 Γ.size f.size := by
  refine .start (placed_addChild hΓ) (placed_addChild hf) ?_ ?_
  · rw [names_addChild, names_addChild]
    rfl
  · rwa [namesAround_addChild hΓ, namesAround_addChild hf]

/-- Both passes go on in new scopes. -/
theorem Alike.push (h : Alike Γ f n t u) :
    Alike (Γ.addChild t ∅) (f.addChild u ∅) (n + 1) Γ.size f.size := by
  obtain ⟨hpt, hpu⟩ := h.placed
  have hΓ : AddsNames Γ.size [] Γ (Γ.addChild t ∅) := kept_addChild.adds _
  have hf : AddsNames f.size [] f (f.addChild u ∅) := kept_addChild.adds _
  refine .inner (placed_addChild hpt) (placed_addChild hpu) ?_ ?_ ?_
    (h.keep hΓ hf hpt.own_lt hpu.own_lt)
  · rw [names_addChild, names_addChild]
    rfl
  · rw [outer_addChild, if_pos rfl, chain_of_adds hpt hΓ]
  · rw [outer_addChild, if_pos rfl, chain_of_adds hpu hf]

/-- Both passes go back to the scopes that are around the current ones. -/
theorem Alike.pop (h : Alike Γ f (n + 1) t u) :
    Alike Γ f n ((Γ.parent? t).getD t) ((f.parent? u).getD u) := by
  cases h with
  | inner _ _ _ hot hou h =>
    rw [parent?, hot, parent?, hou]
    exact h

end Alike

namespace Session

/-- What the scopes of both passes have to do with each other. -/
structure Aligned (n : Nat) (σ : Session) : Prop where
  alike : Alike σ.types σ.values n σ.typeScope σ.valueScope
  ready : σ.values.Ready

variable {n : Nat} {p : Program} {tp : Typed.Program Ty} {σ σ₁ : Session}

/-- A program that analysis accepts does not fail because of names, and leaves the scopes alike. -/
theorem Aligned.evaluate (hσ : Aligned n σ) (ha : σ.analyze p = (.ok tp, σ₁)) (depth : Nat) :
    match σ₁.evaluate depth p with
    | (⟨.ok _, _⟩, σ₂) => Aligned n σ₂
    | (⟨.error fault, _⟩, _) => Evaluation.Allowed fault := by
  obtain ⟨st, hst, rfl⟩ := analyze_eq_ok ha
  obtain ⟨hpt, hpu⟩ := hσ.alike.placed
  obtain ⟨hsc, hadds⟩ := Analysis.analyze_scoped hpt hst
  have hhosts : Hosts σ.values σ.valueScope (σ.types.namesAround σ.typeScope)
      (σ.types.names σ.typeScope) :=
    ⟨hpu.own_lt, hσ.alike.names_eq.symm, fun n hn =>
      List.mem_append_right _ (hσ.alike.around n hn)⟩
  have hends := Evaluation.evaluate_safe depth (m := ⟨σ.values, #[], st.trace⟩) hσ.ready hhosts hsc
  dsimp only [Session.evaluate]
  cases hr : Evaluation.evaluate depth σ.valueScope p ⟨σ.values, #[], st.trace⟩ with
  | ok v m =>
    rw [hr] at hends
    exact ⟨hσ.alike.grow hadds hends.2, hends.1⟩
  | error fault m =>
    rw [hr] at hends
    exact hends

theorem plain_prelude (fixtures : Bool) : (Prelude.values fixtures).Ready := by
  have hready {f : ValueScopes} {es : List (String × Value)} (hf : f.Ready)
      (hnodup : (es.map Prod.fst).Nodup) (hes : ∀ e ∈ es, e.2.closures.isEmpty = true) :
      (f.addRoot (Bindings.ofList es)).Ready := by
    apply ready_addRoot hf
    intro e he
    rw [Bindings.entries_ofList hnodup] at he
    exact Evaluation.Plain.ready (List.isEmpty_iff.1 (hes e he))
  cases fixtures with
  | false => exact hready ready_empty (by decide) (by decide)
  | true =>
    exact hready (hready ready_empty (by decide) (by decide)) (by decide) (by decide)

/-- There is a value for every name that has a type. -/
theorem prelude_names (fixtures : Bool) :
    ∀ n ∈ (Prelude.types fixtures).namesFrom Prelude.root,
      n ∈ (Prelude.values fixtures).namesFrom Prelude.root := by
  cases fixtures <;> decide

theorem aligned_start {placement : Placement} {fixtures : Bool} (h : placement ≠ .root) :
    Aligned 0 (start placement fixtures) := by
  cases placement with
  | child =>
    obtain ⟨hΓ, hf⟩ := placed_prelude fixtures
    exact ⟨.ofChild hΓ hf (prelude_names fixtures),
      ready_addChild (plain_prelude fixtures) ready_noEntries⟩
  | root => exact absurd rfl h
  | empty =>
    refine ⟨.start placed_addRoot placed_addRoot rfl ?_, ready_addRoot ready_empty ready_noEntries⟩
    exact fun _ hn => nomatch hn

theorem Smooth.aligned (h : Smooth n σ) : Aligned n σ := by
  induction h with
  | start h => exact aligned_start h
  | @run n depth p tp σ σ₁ σ₂ v output _ ha he ih =>
    have h := ih.evaluate ha depth
    rwa [he] at h
  | push _ ih => exact ⟨ih.alike.push, ready_addChild ih.ready ready_noEntries⟩
  | pop _ ih => exact ⟨ih.alike.pop, ih.ready⟩

/-- What analysis accepts, after programs that have all come to their end, never fails because of
names, a stray `RETURN` or a malformed tree. When it comes to its end, too, the current scopes of
both passes have the same names in the same order. -/
theorem accepted_names_safe (hσ : Smooth n σ) (ha : σ.analyze p = (.ok tp, σ₁)) (depth : Nat) :
    (∀ e output σ₂, σ₁.evaluate depth p = (⟨.error (.error e), output⟩, σ₂) →
      e.kind ∉ [.undefinedName, .duplicateName, .unhandledReturn, .defect, .scope]) ∧
    ∀ v output σ₂, σ₁.evaluate depth p = (⟨.ok v, output⟩, σ₂) → σ₂.typeNames = σ₂.valueNames := by
  have h := hσ.aligned.evaluate ha depth
  constructor
  · intro e output σ₂ he
    rw [he] at h
    exact h
  · intro v output σ₂ he
    rw [he] at h
    exact h.alike.names_eq

/-- An object is made whose method is called later, in a program of its own. -/
def getter : Program :=
  .source [.letStmt (.mk "counter" none (some (.object none
      [.mk "count" none (some (.literal (.integer 1)))]
      [.mk "get" [] [] (some "Integer") [.returnStmt (some (.property (.var "this") "count"))]]))),
    .defStmt (.mk "twice" ["n"] [some "Integer"] (some "Integer")
      [.returnStmt (some (.binary "+" (.var "n") (.methodCall (.var "counter") "get" [])))]),
    .exprStmt (.call "twice" [.methodCall (.var "counter") "get" []])]

/-- The theorem at a program that calls a function and a method. -/
theorem accepted_names_safe_getter :
    ∃ tp σ₁ v output σ₂, Smooth 0 (start .child true) ∧
      (start .child true).analyze getter = (.ok tp, σ₁) ∧
      σ₁.evaluate 20 getter = (⟨.ok v, output⟩, σ₂) ∧ σ₂.typeNames = σ₂.valueNames := by
  have hσ : Smooth 0 (start .child true) := .start (by decide)
  have hruns : (match (start .child true).analyze getter with
      | (.ok _, σ₁) => (σ₁.evaluate 20 getter).1.result.toBool
      | (.error _, _) => false) = true := by cbv
  rcases ha : (start .child true).analyze getter with ⟨_ | tp, σ₁⟩
  · simp [ha] at hruns
  · rcases he : σ₁.evaluate 20 getter with ⟨⟨_ | v, output⟩, σ₂⟩
    · simp [ha, he, Except.toBool] at hruns
    · exact ⟨tp, σ₁, v, output, σ₂, hσ, rfl, he, (accepted_names_safe hσ ha 20).2 v output σ₂ he⟩

end Session

end ObjectLang
