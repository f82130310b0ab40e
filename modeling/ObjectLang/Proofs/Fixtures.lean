import Mathlib
import ObjectLang.Proofs.Pairing.Analysis
import ObjectLang.Proofs.Session
import ObjectLang.Proofs.Shift.Evaluation
import ObjectLang.Proofs.Snapshot.Errors
import ObjectLang.Proofs.Snapshot.Values

/-!
Programs that name none of the fixtures take no notice of them. With the fixtures all scopes of a
program have higher numbers, and the outermost scope has more names; neither is ever told.
-/

namespace ObjectLang

open Forest Bindings NumberingM

namespace Prelude

variable {name : String}

/-- The names of the fixtures. -/
def fixtureNames : List String :=
  ["variable", "function", "functionAny", "functionString", "object", "any", "equatable",
    "comparable", "iterable"]

/-- More bindings after the others matter to their own names only. -/
theorem find?_of_entries_eq {α : Type} {b c : Bindings α} (rest : List (String × α))
    (h : c.entries = b.entries ++ rest) (hname : name ∉ rest.map Prod.fst) :
    c.find? name = b.find? name := by
  ext v
  have hrest : (name, v) ∉ rest := fun hv => hname (List.mem_map_of_mem hv)
  rw [find?_eq_some_iff, find?_eq_some_iff, h, List.mem_append, or_iff_left hrest]

theorem find?_types (hname : name ∉ fixtureNames) :
    ((types true).own root).find? name = ((types false).own root).find? name :=
  find?_of_entries_eq fixtureTypes rfl hname

theorem find?_values (hname : name ∉ fixtureNames) :
    ((values true).own root).find? name = ((values false).own root).find? name :=
  find?_of_entries_eq fixtureValues rfl hname

/-! The types of two sessions. -/

/-- New scopes of a session with fixtures go together with those of a session without. -/
def fixturePairing : Pairing where
  old _ _ := False
  left := (types false).size
  right := (types true).size
  old_lt _ _ h := h.elim

/-- Every native function has the type of a signature. -/
theorem paired_native {R : ScopeId → ScopeId → Prop} {t : Ty}
    (h : ((types false).own root).find? name = some t) : Ty.Paired R t t := by
  have hentries : ((types false).own root).entries = natives.filterMap typeEntry? := rfl
  rw [find?_eq_some_iff, hentries] at h
  obtain ⟨f, -, hf⟩ := List.mem_filterMap.1 h
  obtain ⟨signature, -, hentry⟩ := Option.map_eq_some_iff.1 hf
  obtain ⟨-, rfl⟩ := Prod.mk.inj hentry
  refine .fn (List.forall₂_same.2 fun u hu => ?_) (.prim _)
  obtain ⟨p, -, rfl⟩ := List.mem_map.1 hu
  exact .prim p

theorem lookup_root {α : Type} {f : Forest α} (h : f.outer root = []) :
    f.lookup root name = (f.own root).find? name := by
  rw [lookup_eq, h]
  exact Option.or_none

theorem twins_root : fixturePairing.Twins fixtureNames root root (types false) (types true) := by
  refine Pairing.twins_start fixturePairing.old_lt (fun _ _ h => h.elim) (placed_prelude false).1
    (placed_prelude true).1 (fun n hn => ?_) fun n hn => ?_
  · rw [containsOwn, containsOwn, contains_eq_isSome, contains_eq_isSome, find?_types hn]
  · rw [lookup_root rfl, lookup_root rfl, find?_types hn]
    cases h : ((types false).own root).find? n with
    | none => exact .none
    | some t => exact .some (paired_native h)

theorem alone_root : fixturePairing.Alone root root :=
  Pairing.alone_start fixturePairing.old_lt (by decide) (by decide) (fun _ h => h) fun _ h => h

/-! The values of two sessions. -/

/-- With fixtures, all scopes but the outermost have the next number. -/
def fixtureShift : Shift := ⟨1, 1, fixtureNames⟩

theorem moved_values : (values false).Moved fixtureShift (values true) where
  base_le := by decide
  size_eq := by decide
  outer_eq s := by
    have hroots (fixtures : Bool) (r : ScopeId) : (values fixtures).outer r = [] := by
      have hall : ∀ r < (values fixtures).size, (values fixtures).outer r = [] := by
        cases fixtures <;> decide
      by_cases hr : r < (values fixtures).size
      · exact hall r hr
      · exact outer_of_size_le (Nat.not_lt.1 hr)
    rw [hroots, hroots]
    rfl
  new s hs := by
    have hmove : (values true).size ≤ fixtureShift.move s := by
      rw [fixtureShift.move_of_le hs]
      exact Nat.succ_le_succ hs
    rw [own_of_size_le hs, own_of_size_le hmove]
    exact aligned_empty
  old s hs name hname := by
    obtain rfl : s = root := Nat.lt_one_iff.1 hs
    rw [find?_values hname]
    cases h : ((values false).own root).find? name with
    | none => exact .none
    | some v =>
      have hentries : ((values false).own root).entries = natives.map valueEntry := rfl
      rw [find?_eq_some_iff, hentries] at h
      obtain ⟨f, -, hf⟩ := List.mem_map.1 h
      obtain ⟨-, rfl⟩ := Prod.mk.inj hf
      exact .some (.function (.native f))

end Prelude

namespace Session

/-- What can be told of an analysis: the program with its types by themselves, or the kind and the
text of the error and the types that it is about. -/
def analysisTold (σ : Session) (p : Program) :
    Except (AnalysisErrorKind × String × Option TySnapshot × Option TySnapshot)
      (Typed.Program TySnapshot) :=
  let (result, σ₁) := σ.analyze p
  match result with
  | .ok typed => .ok (typed.snapshot σ₁.types)
  | .error e => .error (e.kind, e.message σ₁.types, e.snapshotTypes σ₁.types)

/-- What can be told of an evaluation: the value by itself or the fault, and all that was written. -/
def evaluationTold (depth : Nat) (σ : Session) (p : Program) : Except Fault ValueSnapshot × String :=
  match σ.evaluate depth p with
  | (⟨.ok v, output⟩, σ₁) => (.ok (fromStart (v.snapshot σ₁.values)), output)
  | (⟨.error e, output⟩, _) => (.error e, output)

/-- From scopes that go together, analysis tells the same, if scopes from before that are paired are
aligned and are not the ones that it works in. -/
theorem analysisTold_of_twins {P : Pairing} {hidden : List String} {f : ScopeId → ScopeId}
    {p : Program} {σ τ : Session} (hp : p.Avoids hidden)
    (h : P.Twins hidden σ.typeScope τ.typeScope σ.types τ.types)
    (halone : P.Alone σ.typeScope τ.typeScope) (hf : Function.Injective f)
    (hR : ∀ n a b, P.rel n a b → b = f a)
    (hold : ∀ a b, P.old a b → a ≠ σ.typeScope ∧ b ≠ τ.typeScope ∧
      Aligned (P.Same σ.types.size) (σ.types.own a) (τ.types.own b)) :
    σ.analysisTold p = τ.analysisTold p := by
  have hown {Γ Δ : TypeScopes} (hlinked : P.Linked Γ Δ)
      (hl : ∃ added, AddsEntries σ.typeScope added σ.types Γ)
      (hr : ∃ added, AddsEntries τ.typeScope added τ.types Δ) (a b : ScopeId)
      (hab : P.rel Γ.size a b) : Aligned (P.Same Γ.size) (Γ.own a) (Δ.own b) := by
    obtain ⟨_, hl⟩ := hl
    obtain ⟨_, hr⟩ := hr
    rcases hab with hab | hab
    · obtain ⟨ha, hb, haligned⟩ := hold a b hab
      obtain ⟨k, hleft, hright⟩ := h.size_eq
      have ⟨hla, hlb⟩ := P.old_lt a b hab
      have hla : a < σ.types.size := Nat.lt_of_lt_of_le hla (by omega)
      have hlb : b < τ.types.size := Nat.lt_of_lt_of_le hlb (by omega)
      rw [hl.own_eq hla ha, hr.own_eq hlb hb]
      exact haligned.mono fun _ _ hvw => Pairing.same_mono hvw hl.size_le
    · exact hlinked.new_own a b hab
  have hagree := Analysis.tandem_analyze 0 p (fun _ => halone) hp ⟨σ.types, σ.log⟩ ⟨τ.types, τ.log⟩
    (Nat.zero_le _) h
  have hl := Analysis.keeps_analyze σ.typeScope p ⟨σ.types, σ.log⟩
  have hr := Analysis.keeps_analyze τ.typeScope p ⟨τ.types, τ.log⟩
  unfold analysisTold analyze
  generalize Analysis.analyze σ.typeScope p ⟨σ.types, σ.log⟩ = r,
    Analysis.analyze τ.typeScope p ⟨τ.types, τ.log⟩ = r' at hagree hl hr
  cases hagree with
  | ok _ halike htwins =>
    refine congrArg Except.ok (fromStart_eq (f := f) (Typed.walks_program ?_ halike))
    exact fun _ _ => Ty.walks_snapshot hf (hR _) (hown htwins.toLinked hl hr)
  | error he hlinked =>
    have hnames (a b : ScopeId) (hab : P.rel _ a b) := (hown hlinked hl hr a b hab).names_eq
    simp only [he.kind_eq, he.message_eq hnames, he.snapshotTypes_eq hf (hR _) (hown hlinked hl hr)]

variable {p : Program} (hp : p.Avoids Prelude.fixtureNames)
include hp

/-- With the fixtures, new scopes have the next number. -/
theorem analysisTold_eq {σ τ : Session}
    (h : Prelude.fixturePairing.Twins Prelude.fixtureNames σ.typeScope τ.typeScope σ.types τ.types)
    (halone : Prelude.fixturePairing.Alone σ.typeScope τ.typeScope) :
    σ.analysisTold p = τ.analysisTold p := by
  refine analysisTold_of_twins (f := (· + 1)) hp h halone (fun _ _ => Nat.succ.inj) ?_
    fun _ _ hab => hab.elim
  intro n a b hab
  obtain ⟨k, rfl, rfl, -⟩ := hab.resolve_left id
  show 2 + k = 1 + k + 1
  omega

/-- From scopes that go together, evaluation tells the same. -/
theorem evaluationTold_eq {σ τ : Session} (depth : Nat)
    (h : σ.values.Moved Prelude.fixtureShift τ.values)
    (hscope : τ.valueScope = Prelude.fixtureShift.move σ.valueScope) :
    σ.evaluationTold depth p = τ.evaluationTold depth p := by
  have hend := Evaluation.mirrors_evaluate ⟨⟨σ.values, #[], σ.log⟩, ⟨τ.values, #[], τ.log⟩⟩ depth
    σ.valueScope p hp ⟨σ.values, #[], σ.log⟩ ⟨τ.values, #[], τ.log⟩
    ⟨h, ⟨#[], rfl, rfl⟩, #[], Array.append_empty.symm, Array.append_empty.symm⟩
  unfold evaluationTold evaluate
  rw [hscope]
  generalize Evaluation.evaluate depth σ.valueScope p ⟨σ.values, #[], σ.log⟩ = r,
    Evaluation.evaluate depth (Prelude.fixtureShift.move σ.valueScope) p
      ⟨τ.values, #[], τ.log⟩ = r' at hend
  have htext {m m' : Machine} (houtput : ∃ lines, m.output = #[] ++ lines ∧ m'.output = #[] ++ lines) :
      m.text = m'.text := by
    obtain ⟨lines, hleft, hright⟩ := houtput
    rw [Machine.text, Machine.text, hleft, hright]
  cases hend with
  | ok hv hm => simp only [htext hm.output, Value.fromStart_snapshot_moved hm.scopes hv]
  | error e hm => simp only [htext hm.output]

/-- A program that uses and declares none of the names of the fixtures is told the same about in a
session with fixtures as in one without, be it inside the outermost scopes or directly in them. It
may well have properties of these names. -/
theorem told_without_fixtures (placement : Placement) :
    (start placement true).analysisTold p = (start placement false).analysisTold p ∧
      ∀ depth, (start placement true).evaluationTold depth p =
        (start placement false).evaluationTold depth p := by
  cases placement with
  | child =>
    have htypes := Prelude.twins_root.addChild aligned_empty
    have hvalues := Prelude.moved_values.addChild aligned_empty Prelude.root
    have hnew := Prelude.twins_root.toLinked.new_size (Nat.lt_succ_self _)
    exact ⟨(analysisTold_eq hp htypes (Pairing.alone_of_new hnew)).symm,
      fun depth => (evaluationTold_eq hp depth hvalues rfl).symm⟩
  | root =>
    exact ⟨(analysisTold_eq hp Prelude.twins_root Prelude.alone_root).symm,
      fun depth => (evaluationTold_eq hp depth Prelude.moved_values rfl).symm⟩
  | empty => exact ⟨rfl, fun _ => rfl⟩

omit hp

/-- An object that is made, printed, and asked for a member that has the name of a fixture. -/
def boxed : Program :=
  .source [.letStmt (.mk "box" none (some (.object none
      [.mk "value" none (some (.literal (.integer 1)))]
      [.mk "read" [] [] (some "Integer") [.returnStmt (some (.var "value"))]]))),
    .exprStmt (.call "print" [.var "box"]),
    .exprStmt (.property (.var "box") "object")]

/-- The theorem at a program that analysis rejects and that evaluation writes something for. -/
theorem told_without_fixtures_boxed :
    boxed.Avoids Prelude.fixtureNames ∧
      (start .child true).analysisTold boxed = (start .child false).analysisTold boxed ∧
      (∀ depth, (start .child true).evaluationTold depth boxed =
        (start .child false).evaluationTold depth boxed) ∧
      ((start .child false).evaluationTold 5 boxed).2 ≠ "" := by
  have hp : boxed.Avoids Prelude.fixtureNames := by
    simp [boxed, Program.Avoids, BlockAvoids, Stmt.Avoids, LetDecl.Avoids, OptionAvoids, Expr.Avoids,
      FieldsAvoid, MethodsAvoid, DefDecl.Avoids, ArgsAvoid, Prelude.fixtureNames]
  obtain ⟨hanalysis, hevaluation⟩ := told_without_fixtures hp .child
  exact ⟨hp, hanalysis, hevaluation, by cbv⟩

end Session

end ObjectLang
