import Mathlib.Data.List.Forall2
import Mathlib.Data.List.Perm.Subperm
import ObjectLang.Types.Equality

/-!
Equality of types is bisimilarity. The comparison keeps one set of assumed pairs for all its
branches and never takes a pair back; this is sound because a difference met anywhere ends the whole
comparison.
-/

namespace ObjectLang

namespace Bindings

variable {α : Type} {a b : Bindings α} {ps : List (α × α)}

theorem mapM_find?_mem {es : List (String × α)}
    (h : (es.mapM fun e => (b.find? e.1).map fun v => (e.2, v)) = some ps) :
    (∀ e ∈ es, ∃ v, b.find? e.1 = some v ∧ (e.2, v) ∈ ps) ∧
      ∀ p ∈ ps, ∃ e ∈ es, e.2 = p.1 ∧ b.find? e.1 = some p.2 := by
  induction es generalizing ps with
  | nil =>
    obtain rfl : ps = [] := by simpa using h.symm
    simp
  | cons e es ih =>
    simp only [List.mapM_cons, Option.bind_eq_bind, Option.bind_eq_some_iff, Option.map_eq_some_iff,
      Option.pure_def, Option.some.injEq] at h
    obtain ⟨p, ⟨v, hv, rfl⟩, qs, hq, rfl⟩ := h
    obtain ⟨ihl, ihr⟩ := ih hq
    constructor
    · intro d hd
      rcases List.mem_cons.1 hd with rfl | hd
      · exact ⟨v, hv, by simp⟩
      · obtain ⟨w, hw, hm⟩ := ihl d hd
        exact ⟨w, hw, List.mem_cons_of_mem _ hm⟩
    · intro q hm
      rcases List.mem_cons.1 hm with rfl | hm
      · exact ⟨e, by simp, rfl, hv⟩
      · obtain ⟨d, hd, hq⟩ := ihr q hm
        exact ⟨d, List.mem_cons_of_mem _ hd, hq⟩

theorem mapM_find?_isSome {es : List (String × α)} (h : ∀ e ∈ es, e.1 ∈ b.names) :
    ∃ ps, (es.mapM fun e => (b.find? e.1).map fun v => (e.2, v)) = some ps := by
  induction es with
  | nil => exact ⟨[], rfl⟩
  | cons e es ih =>
    obtain ⟨v, hv⟩ := mem_names_iff.1 (h e (by simp))
    obtain ⟨ps, hp⟩ := ih fun e he => h e (by simp [he])
    exact ⟨(e.2, v) :: ps, by simp [hv, hp]⟩

/-- Maps that are paired up have the same names, and the values at every name are a pair. -/
theorem pairUp?_covers (h : pairUp? a b = some ps) :
    (∀ n, n ∈ a.names ↔ n ∈ b.names) ∧
      ∀ n v w, a.find? n = some v → b.find? n = some w → (v, w) ∈ ps := by
  unfold pairUp? at h
  split at h
  · next hs =>
    have hm := (mapM_find?_mem h).1
    have hab : a.names ⊆ b.names := by
      intro n hn
      obtain ⟨e, he, rfl⟩ := List.mem_map.1 hn
      obtain ⟨v, hv, -⟩ := hm e he
      exact mem_names_iff.2 ⟨v, hv⟩
    -- Nothing is left over in `b`: its names are no more than those of `a`.
    have hl : b.names.length ≤ a.names.length := by
      rw [size_eq, size_eq] at hs
      omega
    have hp : a.names.Perm b.names :=
      (List.subperm_of_subset a.names_nodup hab).perm_of_length_le hl
    refine ⟨fun n => hp.mem_iff, ?_⟩
    intro n v w hv hw
    obtain ⟨u, hu, hmem⟩ := hm _ (find?_eq_some_iff.1 hv)
    obtain rfl : u = w := by simpa [hu] using hw
    exact hmem
  · simp at h

/-- Every pair comes from a name. -/
theorem pairUp?_mem (h : pairUp? a b = some ps) {p : α × α} (hp : p ∈ ps) :
    ∃ n, a.find? n = some p.1 ∧ b.find? n = some p.2 := by
  unfold pairUp? at h
  split at h
  · obtain ⟨e, he, hl, hr⟩ := (mapM_find?_mem h).2 p hp
    exact ⟨e.1, find?_eq_some_iff.2 (hl ▸ he), hr⟩
  · simp at h

theorem pairUp?_isSome (h : ∀ n, n ∈ a.names ↔ n ∈ b.names) : ∃ ps, pairUp? a b = some ps := by
  have hp : a.names.Perm b.names :=
    (List.perm_ext_iff_of_nodup a.names_nodup b.names_nodup).2 h
  have hs : a.size = b.size := by rw [size_eq, size_eq, hp.length_eq]
  have hn : ∀ e ∈ a.entries, e.1 ∈ b.names := fun e he => (h e.1).1 (List.mem_map_of_mem he)
  obtain ⟨ps, hps⟩ := mapM_find?_isSome hn
  exact ⟨ps, by simp [pairUp?, hs, hps]⟩

end Bindings

namespace Ty

variable {Γ : TypeScopes} {R S : Ty → Ty → Prop} {t u : Ty}

/-- Two types have the same shape, and `R` relates their parts. -/
inductive Matches (Γ : TypeScopes) (R : Ty → Ty → Prop) : Ty → Ty → Prop
  | prim (p : Prim) : Matches Γ R (.prim p) (.prim p)
  | fn {ps qs : List Ty} {r s : Ty} (params : List.Forall₂ R ps qs) (returns : R r s) :
    Matches Γ R (.fn ps r) (.fn qs s)
  | object {a b : ScopeId} (names : ∀ n, n ∈ Γ.names a ↔ n ∈ Γ.names b)
    (members : ∀ n t u, Γ.lookupOwn a n = some t → Γ.lookupOwn b n = some u → R t u) :
    Matches Γ R (.object a) (.object b)

/-- A relation that holds only between types of one shape with related parts. -/
def IsBisimulation (Γ : TypeScopes) (R : Ty → Ty → Prop) : Prop := ∀ t u, R t u → Matches Γ R t u

/-- Two types that no sequence of members, parameters and results tells apart. -/
def Bisimilar (Γ : TypeScopes) (t u : Ty) : Prop := ∃ R, IsBisimulation Γ R ∧ R t u

theorem Matches.mono (h : Matches Γ R t u) (hRS : ∀ t u, R t u → S t u) : Matches Γ S t u := by
  cases h with
  | prim p => exact .prim p
  | fn hp hr => exact .fn (hp.imp hRS) (hRS _ _ hr)
  | object hn hm => exact .object hn fun n t u ht hu => hRS _ _ (hm n t u ht hu)

theorem Matches.refl (hR : ∀ t, R t t) (t : Ty) : Matches Γ R t t := by
  cases t with
  | prim p => exact .prim p
  | fn ps r => exact .fn (List.forall₂_same.2 fun t _ => hR t) (hR r)
  | object a =>
    refine .object (fun n => Iff.rfl) ?_
    intro n t u ht hu
    obtain rfl : t = u := by simpa [ht] using hu
    exact hR t

/-- `R` is reflexive, and every pair of it has the same shape and related parts or is one of the
pairs of object types that are still assumed to be equal. -/
structure Consistent (Γ : TypeScopes) (pairs : ScopePairs) (R : Ty → Ty → Prop) : Prop where
  refl : ∀ t, R t t
  assumed : ∀ p ∈ pairs, R (.object p.1) (.object p.2)
  unfolds : ∀ t u, R t u → Matches Γ R t u ∨ ∃ p ∈ pairs, t = .object p.1 ∧ u = .object p.2

theorem mem_insert_pair {pairs : ScopePairs} {p q : ScopeId × ScopeId} :
    q ∈ pairs.insert p ↔ q = p ∨ q ∈ pairs := by
  rw [Std.TreeSet.mem_insert, Std.LawfulEqCmp.compare_eq_iff_eq, eq_comm]

theorem Consistent.add {pairs : ScopePairs} (hR : Consistent Γ pairs R) (h : Matches Γ R t u) :
    Consistent Γ pairs fun v w => R v w ∨ v = t ∧ w = u where
  refl v := Or.inl (hR.refl v)
  assumed p hp := Or.inl (hR.assumed p hp)
  unfolds := by
    rintro v w (hv | ⟨rfl, rfl⟩)
    · exact (hR.unfolds v w hv).imp_left fun hm => hm.mono fun _ _ => Or.inl
    · exact Or.inl (h.mono fun _ _ => Or.inl)

/-- An assumption about two object types can be dropped once all their members are related. -/
theorem Consistent.discharge {pairs : ScopePairs} {a b : ScopeId}
    (hR : Consistent Γ (pairs.insert (a, b)) R) (h : Matches Γ R (.object a) (.object b)) :
    Consistent Γ pairs R where
  refl := hR.refl
  assumed p hp := hR.assumed p (mem_insert_pair.2 (Or.inr hp))
  unfolds t u htu := by
    obtain hm | ⟨p, hp, rfl, rfl⟩ := hR.unfolds t u htu
    · exact Or.inl hm
    · obtain rfl | hp := mem_insert_pair.1 hp
      · exact Or.inl h
      · exact Or.inr ⟨p, hp, rfl, rfl⟩

/-- A comparison that comes to its end has related all that it looked at. -/
theorem equivAll_sound {todo : List (Ty × Ty)} {pairs : ScopePairs}
    (h : equivAll Γ todo pairs = true) :
    ∃ R, Consistent Γ pairs R ∧ ∀ p ∈ todo, R p.1 p.2 := by
  fun_induction equivAll Γ todo pairs with
  | case1 pairs =>
    refine ⟨fun t u => t = u ∨ ∃ p ∈ pairs, t = .object p.1 ∧ u = .object p.2, ?_, by simp⟩
    refine ⟨fun t => Or.inl rfl, fun p hp => Or.inr ⟨p, hp, rfl, rfl⟩, ?_⟩
    rintro t u (rfl | hp)
    · exact Or.inl (.refl (fun t => Or.inl rfl) t)
    · exact Or.inr hp
  | case2 pairs t rest ih =>
    obtain ⟨R, hR, hrest⟩ := ih h
    exact ⟨R, hR, List.forall_mem_cons.2 ⟨hR.refl t, hrest⟩⟩
  | case3 pairs rest ps r qs s _ ih =>
    obtain ⟨hl, h⟩ : ps.length = qs.length ∧ equivAll Γ (ps.zip qs ++ (r, s) :: rest) pairs := by
      simpa using h
    obtain ⟨R, hR, htodo⟩ := ih h
    obtain ⟨hzip, htodo⟩ := List.forall_mem_append.1 htodo
    obtain ⟨hr, hrest⟩ := List.forall_mem_cons.1 htodo
    have hm : Matches Γ R (.fn ps r) (.fn qs s) :=
      .fn (List.forall₂_iff_zip.2 ⟨hl, fun hp => hzip _ hp⟩) hr
    refine ⟨_, hR.add hm, List.forall_mem_cons.2 ⟨Or.inr ⟨rfl, rfl⟩, ?_⟩⟩
    exact fun p hp => Or.inl (hrest p hp)
  | case4 pairs rest a b hab _ ih =>
    obtain ⟨R, hR, hrest⟩ := ih h
    exact ⟨R, hR, List.forall_mem_cons.2 ⟨hR.assumed _ hab, hrest⟩⟩
  | case5 pairs rest a b _ members hopened _ ih =>
    obtain ⟨R, hR, htodo⟩ := ih h
    rw [List.forall_mem_append] at htodo
    obtain ⟨hnames, hcovers⟩ := Bindings.pairUp?_covers hopened
    have hm : Matches Γ R (.object a) (.object b) :=
      .object hnames fun n t u ht hu => htodo.1 _ (hcovers n t u ht hu)
    have hab : R (.object a) (.object b) := hR.assumed (a, b) (mem_insert_pair.2 (Or.inl rfl))
    exact ⟨R, hR.discharge hm, List.forall_mem_cons.2 ⟨hab, htodo.2⟩⟩
  | case6 => simp at h
  | case7 => simp at h

/-- Related types never stop a comparison, whatever has been assumed so far. -/
theorem equivAll_complete (hR : IsBisimulation Γ R) {todo : List (Ty × Ty)} {pairs : ScopePairs}
    (h : ∀ p ∈ todo, R p.1 p.2) : equivAll Γ todo pairs = true := by
  fun_induction equivAll Γ todo pairs with
  | case1 => rfl
  | case2 pairs t rest ih => exact ih (List.forall_mem_cons.1 h).2
  | case3 pairs rest ps r qs s _ ih =>
    obtain ⟨htu, hrest⟩ := List.forall_mem_cons.1 h
    obtain ⟨hp, hr⟩ : List.Forall₂ R ps qs ∧ R r s := by
      cases hR _ _ htu with
      | fn hp hr => exact ⟨hp, hr⟩
    obtain ⟨hl, hzip⟩ := List.forall₂_iff_zip.1 hp
    have htodo : ∀ p ∈ ps.zip qs ++ (r, s) :: rest, R p.1 p.2 :=
      List.forall_mem_append.2 ⟨fun p hp => hzip hp, List.forall_mem_cons.2 ⟨hr, hrest⟩⟩
    simp [hl, ih htodo]
  | case4 pairs rest a b _ _ ih => exact ih (List.forall_mem_cons.1 h).2
  | case5 pairs rest a b _ members hopened _ ih =>
    obtain ⟨htu, hrest⟩ := List.forall_mem_cons.1 h
    refine ih (List.forall_mem_append.2 ⟨fun p hp => ?_, hrest⟩)
    obtain ⟨n, ht, hu⟩ := Bindings.pairUp?_mem hopened hp
    cases hR _ _ htu with
    | object _ hm => exact hm n _ _ ht hu
  | case6 pairs rest a b _ hopened =>
    exfalso
    cases hR _ _ (List.forall_mem_cons.1 h).1 with
    | object hn _ =>
      obtain ⟨ps, hps⟩ := Bindings.pairUp?_isSome hn
      simp [hps] at hopened
  | case7 pairs t u rest hne hfn hobject =>
    exfalso
    cases hR _ _ (List.forall_mem_cons.1 h).1 with
    | prim p => exact hne rfl
    | fn _ _ => exact hfn _ _ _ _ rfl rfl
    | object _ _ => exact hobject _ _ rfl rfl

theorem equiv_iff_bisimilar : equiv Γ t u = true ↔ Bisimilar Γ t u := by
  constructor
  · intro h
    obtain ⟨R, hR, htodo⟩ := equivAll_sound h
    refine ⟨R, fun v w hvw => ?_, htodo (t, u) (by simp)⟩
    obtain hm | ⟨p, hp, -⟩ := hR.unfolds v w hvw
    · exact hm
    · simp at hp
  · rintro ⟨R, hR, h⟩
    exact equivAll_complete hR (by simpa using h)

/-- Equality of types holds exactly between types that some bisimulation relates, however the types
lead back to each other. The comparison always comes to an end: each pair of object types is opened
at most once. -/
theorem equiv_iff_exists_bisimulation (Γ : TypeScopes) (t u : Ty) :
    equiv Γ t u = true ↔ ∃ R, IsBisimulation Γ R ∧ R t u := equiv_iff_bisimilar

end Ty

end ObjectLang
