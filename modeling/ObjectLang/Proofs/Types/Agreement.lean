import Mathlib.Data.Set.Card
import ObjectLang.Proofs.Types.Equivalence

/-!
The two ways to compare types agree. Component by component, every pair of object types is compared
from scratch, where the other comparison keeps all that it has assumed; but equality is the greatest
relation that opens types part by part, so it does not matter where a comparison starts anew. Being
an equivalence, it divides types into classes, and these are what is counted when the distinct types
of a list are.
-/

namespace ObjectLang.Ty

variable {Γ : TypeScopes} {t u : Ty} {ts us seen : List Ty}

/-- Types with the same shape and equal parts are equal. -/
theorem equiv_of_matches (h : Matches Γ (fun t u => equiv Γ t u = true) t u) :
    equiv Γ t u = true := by
  refine equiv_iff_bisimilar.2 ⟨fun v w => equiv Γ v w = true ∨ v = t ∧ w = u, ?_, Or.inr ⟨rfl, rfl⟩⟩
  rintro v w (hvw | ⟨rfl, rfl⟩)
  · exact (matches_of_equiv hvw).mono fun _ _ => Or.inl
  · exact h.mono fun _ _ => Or.inl

theorem equiv_fn_iff {ps qs : List Ty} {r s : Ty} : equiv Γ (.fn ps r) (.fn qs s) = true ↔
    List.Forall₂ (fun t u => equiv Γ t u = true) ps qs ∧ equiv Γ r s = true := by
  constructor
  · intro h
    cases matches_of_equiv h with
    | fn hp hr => exact ⟨hp, hr⟩
  · exact fun h => equiv_of_matches (.fn h.1 h.2)

/-- Types of different shapes are not equal. -/
theorem equiv_eq_false (h : ∀ R, ¬ Matches Γ R t u) : equiv Γ t u = false :=
  Bool.eq_false_iff.2 fun heq => h _ (matches_of_equiv heq)

mutual

theorem equal_eq_equiv (t u : Ty) : equal Γ t u = equiv Γ t u := by
  by_cases htu : t = u
  · subst htu
    rw [equal.eq_def, if_pos rfl, equiv_refl]
  · rw [equal.eq_def, if_neg htu]
    match t, u with
    | .fn ps r, .fn qs s =>
      rw [Bool.eq_iff_iff, Bool.and_eq_true, equalAll_iff ps qs, equal_eq_equiv r s, equiv_fn_iff]
    | .object _, .object _ => rfl
    | .prim p, .prim q =>
      exact (Bool.eq_false_iff.2 fun h => htu (prim_equiv_iff.1 h).symm).symm
    | .prim _, .fn .. | .prim _, .object _ | .fn .., .prim _ | .fn .., .object _
    | .object _, .prim _ | .object _, .fn .. => exact (equiv_eq_false fun _ h => by cases h).symm

theorem equalAll_iff (ts us : List Ty) :
    equalAll Γ ts us = true ↔ List.Forall₂ (fun t u => equiv Γ t u = true) ts us := by
  match ts, us with
  | [], [] => simp [equalAll]
  | [], _ :: _ | _ :: _, [] => simp [equalAll]
  | t :: ts, u :: us =>
    rw [equalAll, Bool.and_eq_true, equal_eq_equiv t u, equalAll_iff ts us, List.forall₂_cons]

end

theorem equivalence_equal (Γ : TypeScopes) : Equivalence fun t u => equal Γ t u = true := by
  simp only [equal_eq_equiv]
  exact ⟨equiv_refl Γ, equiv_symm, equiv_trans⟩

mutual

/-- A type without the members of its object types. The members are still added while the type is in
use; this much of it is there from the start. -/
def outline : Ty → Ty
  | prim p => prim p
  | fn params returns => fn (outlineAll params) (outline returns)
  | object _ => object 0

def outlineAll : List Ty → List Ty
  | [] => []
  | t :: ts => outline t :: outlineAll ts

end

mutual

/-- Equal types can be looked for among those of one outline. -/
theorem outline_eq_of_equiv (t u : Ty) (h : equiv Γ t u = true) : t.outline = u.outline := by
  match t, u, matches_of_equiv h with
  | .prim _, .prim _, .prim _ => rfl
  | .fn ps r, .fn qs s, .fn hp hr =>
    rw [outline, outline, outlineAll_eq_of_equiv ps qs hp, outline_eq_of_equiv r s hr]
  | .object _, .object _, .object _ _ => rfl

theorem outlineAll_eq_of_equiv (ts us : List Ty)
    (h : List.Forall₂ (fun t u => equiv Γ t u = true) ts us) : outlineAll ts = outlineAll us := by
  match ts, us, h with
  | [], [], .nil => rfl
  | t :: ts, u :: us, .cons h hs =>
    rw [outlineAll, outlineAll, outline_eq_of_equiv t u h, outlineAll_eq_of_equiv ts us hs]

end

section Classes

/-- The types that are equal to a type. -/
def classOf (Γ : TypeScopes) (t : Ty) : Set Ty := {u | equal Γ t u = true}

/-- The classes of equal types that the types of a list are in. -/
def classes (Γ : TypeScopes) (ts : List Ty) : Set (Set Ty) := {c | ∃ t ∈ ts, classOf Γ t = c}

/-- No two types of a list are equal. -/
def Distinct (Γ : TypeScopes) (ts : List Ty) : Prop := ts.Pairwise fun t u => equal Γ t u = false

theorem classOf_eq_iff : classOf Γ t = classOf Γ u ↔ equal Γ t u = true := by
  have hequal := equivalence_equal Γ
  constructor
  · intro h
    have hu : u ∈ classOf Γ u := hequal.refl u
    rwa [← h] at hu
  · intro h
    ext v
    exact ⟨fun hv => hequal.trans (hequal.symm h) hv, fun hv => hequal.trans h hv⟩

theorem classes_cons : classes Γ (t :: ts) = insert (classOf Γ t) (classes Γ ts) := by
  ext c
  simp [classes, eq_comm]

theorem classes_finite (Γ : TypeScopes) (ts : List Ty) : (classes Γ ts).Finite := by
  induction ts with
  | nil => simp [classes]
  | cons t ts ih =>
    rw [classes_cons]
    exact ih.insert _

/-- Distinct types are in as many classes. -/
theorem Distinct.ncard_classes (h : Distinct Γ ts) : (classes Γ ts).ncard = ts.length := by
  induction ts with
  | nil => simp [classes]
  | cons t ts ih =>
    obtain ⟨ht, hts⟩ := List.pairwise_cons.1 h
    have hnew : classOf Γ t ∉ classes Γ ts := by
      rintro ⟨u, hu, heq⟩
      have htu := classOf_eq_iff.1 heq.symm
      simp [ht u hu] at htu
    rw [classes_cons, Set.ncard_insert_of_notMem hnew (classes_finite Γ ts), ih hts,
      List.length_cons]

theorem addNew_distinct (h : Distinct Γ seen) (t : Ty) : Distinct Γ (addNew Γ seen t) := by
  unfold addNew
  split
  · exact h
  · next hnew =>
    refine List.pairwise_cons.2 ⟨fun u hu => ?_, h⟩
    rw [Bool.eq_false_iff]
    intro htu
    exact hnew (List.any_eq_true.2 ⟨u, hu, (equivalence_equal Γ).symm htu⟩)

theorem classes_addNew (Γ : TypeScopes) (seen : List Ty) (t : Ty) :
    classes Γ (addNew Γ seen t) = insert (classOf Γ t) (classes Γ seen) := by
  unfold addNew
  split
  · next hold =>
    obtain ⟨u, hu, hut⟩ := List.any_eq_true.1 hold
    have hmem : classOf Γ t ∈ classes Γ seen := ⟨u, hu, classOf_eq_iff.2 hut⟩
    exact (Set.insert_eq_of_mem hmem).symm
  · exact classes_cons

theorem foldl_addNew_distinct (h : Distinct Γ seen) (ts : List Ty) :
    Distinct Γ (ts.foldl (addNew Γ) seen) := by
  induction ts generalizing seen with
  | nil => exact h
  | cons t ts ih => exact ih (addNew_distinct h t)

/-- Whatever is added, its class is met. -/
theorem classes_foldl_addNew (Γ : TypeScopes) (ts seen : List Ty) :
    classes Γ (ts.foldl (addNew Γ) seen) = classes Γ ts ∪ classes Γ seen := by
  induction ts generalizing seen with
  | nil => simp [classes]
  | cons t ts ih =>
    rw [List.foldl_cons, ih, classes_addNew, classes_cons, Set.union_insert, Set.insert_union]

theorem countDistinct_eq_ncard (Γ : TypeScopes) (ts : List Ty) :
    countDistinct Γ ts = (classes Γ ts).ncard := by
  have hdistinct : Distinct Γ (ts.foldl (addNew Γ) []) := foldl_addNew_distinct .nil ts
  have hclasses := classes_foldl_addNew Γ ts []
  rw [show classes Γ [] = ∅ by simp [classes], Set.union_empty] at hclasses
  rw [countDistinct, ← hdistinct.ncard_classes, hclasses]

end Classes

/-- Both ways to compare types come to the same answer, however the types lead back to each other,
and the answers are those of an equivalence. Equal types have one outline, and the distinct types of a
list are as many as the classes that its types are in, in whatever order and how often they stand
there. -/
theorem equal_agrees_with_equiv (Γ : TypeScopes) :
    (∀ t u, equal Γ t u = equiv Γ t u) ∧
    (∀ t, equal Γ t t = true) ∧
    (∀ t u, equal Γ t u = true → equal Γ u t = true) ∧
    (∀ t u v, equal Γ t u = true → equal Γ u v = true → equal Γ t v = true) ∧
    (∀ t u, equal Γ t u = true → t.outline = u.outline) ∧
    (∀ ts, countDistinct Γ ts = (classes Γ ts).ncard) ∧
    ∀ ts us, (∀ t, t ∈ ts ↔ t ∈ us) → countDistinct Γ ts = countDistinct Γ us := by
  have hequal := equivalence_equal Γ
  refine ⟨equal_eq_equiv, hequal.refl, fun _ _ => hequal.symm, fun _ _ _ => hequal.trans,
    fun t u h => outline_eq_of_equiv t u (equal_eq_equiv t u ▸ h), countDistinct_eq_ncard Γ,
    fun ts us h => ?_⟩
  have hclasses : classes Γ ts = classes Γ us := by simp only [classes, h]
  rw [countDistinct_eq_ncard, countDistinct_eq_ncard, hclasses]

end ObjectLang.Ty
