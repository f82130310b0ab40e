import ObjectLang.Proofs.Scope.Aligned
import ObjectLang.Proofs.Types.Settled
import ObjectLang.Types.Display

/-!
Types of two forests side by side. Types are paired when they are written alike but for their object
types, which a relation pairs. Where paired object types have matching members, all that analysis can
ask about types has the same answer on either side.
-/

namespace ObjectLang.Ty

open Bindings

variable {R S : ScopeId → ScopeId → Prop} {Γ Δ : TypeScopes} {t t' u u' : Ty}

/-- Two types are written alike, with object types that `R` pairs. -/
inductive Paired (R : ScopeId → ScopeId → Prop) : Ty → Ty → Prop
  | prim (p : Prim) : Paired R (.prim p) (.prim p)
  | fn {ps qs : List Ty} {r s : Ty} (params : List.Forall₂ (Paired R) ps qs)
    (returns : Paired R r s) : Paired R (.fn ps r) (.fn qs s)
  | object {a b : ScopeId} (members : R a b) : Paired R (.object a) (.object b)

/-- Paired object types have the same member names, and paired types at each. -/
def Corresponds (R : ScopeId → ScopeId → Prop) (Γ Δ : TypeScopes) : Prop :=
  ∀ a b, R a b → Matching (Paired R) (Γ.own a) (Δ.own b)

mutual

theorem Paired.flip {t u : Ty} (h : Paired R t u) : Paired (fun b a => R a b) u t := by
  match t, h with
  | .prim _, .prim p => exact .prim p
  | .fn .., .fn params returns => exact .fn (flip_all params) returns.flip
  | .object _, .object members => exact .object members

theorem flip_all {ts us : List Ty} (h : List.Forall₂ (Paired R) ts us) :
    List.Forall₂ (Paired fun b a => R a b) us ts := by
  match ts, h with
  | [], .nil => exact .nil
  | _ :: _, .cons h hs => exact .cons h.flip (flip_all hs)

end

mutual

/-- Pairs of object types that occur in types may be said in other words. -/
theorem Paired.mono {t u : Ty} (h : Paired R t u)
    (hRS : ∀ a ∈ t.objects, ∀ b ∈ u.objects, R a b → S a b) : Paired S t u := by
  match t, h with
  | .prim _, .prim p => exact .prim p
  | .fn .., .fn params returns =>
    refine .fn (mono_all params fun a ha b hb => hRS a ?_ b ?_)
      (returns.mono fun a ha b hb => hRS a ?_ b ?_) <;> simp [objects, ha, hb]
  | .object _, .object members =>
    exact .object (hRS _ (by simp [objects]) _ (by simp [objects]) members)

theorem mono_all {ts us : List Ty} (h : List.Forall₂ (Paired R) ts us)
    (hRS : ∀ a ∈ objectsAll ts, ∀ b ∈ objectsAll us, R a b → S a b) :
    List.Forall₂ (Paired S) ts us := by
  match ts, h with
  | [], .nil => exact .nil
  | _ :: _, .cons h hs =>
    refine .cons (h.mono fun a ha b hb => hRS a ?_ b ?_)
      (mono_all hs fun a ha b hb => hRS a ?_ b ?_) <;> simp [objectsAll, ha, hb]

end

mutual

/-- A type goes together with itself if the object types that it is written with do. -/
theorem paired_self (t : Ty) (h : ∀ a ∈ t.objects, R a a) : Paired R t t := by
  match t with
  | .prim p => exact .prim p
  | .fn params returns =>
    exact .fn (paired_self_all params fun a ha => h a (by simp [objects, ha]))
      (paired_self returns fun a ha => h a (by simp [objects, ha]))
  | .object members => exact .object (h members (by simp [objects]))

theorem paired_self_all (ts : List Ty) (h : ∀ a ∈ objectsAll ts, R a a) :
    List.Forall₂ (Paired R) ts ts := by
  match ts with
  | [] => exact .nil
  | t :: ts =>
    exact .cons (paired_self t fun a ha => h a (by simp [objectsAll, ha]))
      (paired_self_all ts fun a ha => h a (by simp [objectsAll, ha]))

end

theorem Paired.imp (h : Paired R t u) (hRS : ∀ a b, R a b → S a b) : Paired S t u :=
  h.mono fun a _ b _ => hRS a b

theorem Corresponds.flip (h : Corresponds R Γ Δ) : Corresponds (fun b a => R a b) Δ Γ :=
  fun b a hab => (h a b hab).flip.mono fun _ _ h => h.flip

theorem forall₂_carry {T : Ty → Ty → Prop} {ts us ts' us' : List Ty}
    (ht : List.Forall₂ (Paired R) ts ts') (hu : List.Forall₂ (Paired R) us us')
    (h : List.Forall₂ T ts us) :
    List.Forall₂ (fun t' u' => ∃ t u, Paired R t t' ∧ Paired R u u' ∧ T t u) ts' us' := by
  induction h generalizing ts' us' with
  | nil =>
    cases ht
    cases hu
    exact .nil
  | cons h _ ih =>
    cases ht with
    | cons ht hts =>
      cases hu with
      | cons hu hus => exact .cons ⟨_, _, ht, hu, h⟩ (ih hts hus)

/-- A bisimulation on one side is one on the other side as well. -/
theorem isBisimulation_carry {T : Ty → Ty → Prop} (h : Corresponds R Γ Δ)
    (hT : IsBisimulation Γ T) :
    IsBisimulation Δ fun t' u' => ∃ t u, Paired R t t' ∧ Paired R u u' ∧ T t u := by
  rintro t' u' ⟨t, u, ht, hu, htu⟩
  cases hT t u htu with
  | prim p =>
    cases ht
    cases hu
    exact .prim p
  | fn hp hr =>
    cases ht with
    | fn htp htr =>
      cases hu with
      | fn hup hur => exact .fn (forall₂_carry htp hup hp) ⟨_, _, htr, hur, hr⟩
  | object hn hm =>
    cases ht with
    | object ha =>
      cases hu with
      | object hb =>
        refine .object (fun n => ?_) fun n v' w' hv hw => ?_
        · exact (h _ _ ha).mem_names.symm.trans ((hn n).trans (h _ _ hb).mem_names)
        · obtain ⟨v, hv, hvv⟩ := (h _ _ ha).exists_left hv
          obtain ⟨w, hw, hww⟩ := (h _ _ hb).exists_left hw
          exact ⟨v, w, hvv, hww, hm n v w hv hw⟩

theorem equiv_of_paired (h : Corresponds R Γ Δ) (ht : Paired R t t') (hu : Paired R u u') :
    equiv Γ t u = equiv Δ t' u' := by
  rw [Bool.eq_iff_iff, equiv_iff_bisimilar, equiv_iff_bisimilar]
  constructor
  · rintro ⟨T, hT, htu⟩
    exact ⟨_, isBisimulation_carry h hT, t, u, ht, hu, htu⟩
  · rintro ⟨T, hT, htu⟩
    exact ⟨_, isBisimulation_carry h.flip hT, t', u', ht.flip, hu.flip, htu⟩

theorem isSubtype_of_paired (h : Corresponds R Γ Δ) (ht : Paired R t t') (hu : Paired R u u') :
    isSubtype Γ t u = isSubtype Δ t' u' := by
  unfold isSubtype
  rw [equiv_of_paired h ht hu]
  congr 1
  cases hu with
  | prim q => cases q <;> cases ht <;> rfl
  | fn _ _ => cases ht <;> rfl
  | object _ => cases ht <;> rfl

/-- Within one forest, corresponding object types are equal. -/
theorem equiv_of_corresponds (h : Corresponds R Γ Γ) (htu : Paired R t u) : equiv Γ t u = true := by
  refine equiv_iff_bisimilar.2 ⟨Paired R, fun t u htu => ?_, htu⟩
  cases htu with
  | prim p => exact .prim p
  | fn params returns => exact .fn params returns
  | object hab =>
    exact .object (fun n => (h _ _ hab).mem_names) fun n v w hv hw => (h _ _ hab).related hv hw

mutual

/-- Messages name paired types alike when members are in the same order. -/
theorem display_of_paired (h : ∀ a b, R a b → Γ.names a = Δ.names b) {t u : Ty}
    (htu : Paired R t u) : t.display Γ = u.display Δ := by
  match t, htu with
  | .prim _, .prim p => simp only [display]
  | .fn .., .fn params returns =>
    simp only [display, displayAll_of_paired h params, display_of_paired h returns]
  | .object _, .object hab => simp only [display, h _ _ hab]

theorem displayAll_of_paired (h : ∀ a b, R a b → Γ.names a = Δ.names b) {ts us : List Ty}
    (htu : List.Forall₂ (Paired R) ts us) : displayAll Γ ts = displayAll Δ us := by
  match ts, htu with
  | [], .nil => simp only [displayAll]
  | _ :: _, .cons htu hs =>
    simp only [displayAll, display_of_paired h htu, displayAll_of_paired h hs]

end

end ObjectLang.Ty
