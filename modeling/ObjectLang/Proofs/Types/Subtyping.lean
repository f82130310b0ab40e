import Mathlib.Logic.Relation
import ObjectLang.Proofs.Analysis.Steps
import ObjectLang.Proofs.Types.Equivalence

/-!
Subtyping orders the types up to equality. The primitive types stand in a diagram, in which each has
at most one tier right above it; the tiers that `Prim.above` lists are those that a path leads up to,
so that paths can be joined. Function and object types stand beside the diagram, directly below its
top.
-/

namespace ObjectLang

namespace Prim

variable {p q r : Prim}

/-- The tier right above a primitive type. -/
def tier? : Prim → Option Prim
  | any => none
  | equatable | iterable => some any
  | nil | comparable => some equatable
  | boolean | integer | decimal | string => some comparable

/-- A path leads up from one primitive type to another. -/
def Climbs : Prim → Prim → Prop := Relation.ReflTransGen fun p q => p.tier? = some q

theorem climbs_any (p : Prim) : p.Climbs any := by
  have heq : equatable.Climbs any := .single rfl
  have hcomp : comparable.Climbs any := .head rfl heq
  cases p with
  | any => exact .refl
  | equatable | iterable => exact .single rfl
  | nil | comparable => exact .head rfl heq
  | boolean | integer | decimal | string => exact .head rfl hcomp

theorem climbs_of_above (h : q ∈ p.above) : p.Climbs q := by
  have hcomp : comparable.Climbs equatable := .single rfl
  cases p with
  | any | equatable | iterable => cases h
  | nil | comparable =>
    obtain rfl := List.mem_singleton.1 h
    exact .single rfl
  | boolean | integer | decimal | string =>
    rcases List.mem_cons.1 h with rfl | h
    · exact .single rfl
    · obtain rfl := List.mem_singleton.1 h
      exact .head rfl hcomp

/-- What a path leads up to is the type itself, the top, or a tier of the table. -/
theorem climbs_iff : p.Climbs q ↔ p = q ∨ q = any ∨ q ∈ p.above := by
  constructor
  · intro h
    induction h using Relation.ReflTransGen.head_induction_on with
    | refl => exact Or.inl rfl
    | @head p r hpr _ ih =>
      cases p <;> cases hpr <;> rcases ih with rfl | rfl | hr <;> simp_all [above]
  · rintro (rfl | rfl | h)
    · exact .refl
    · exact climbs_any p
    · exact climbs_of_above h

/-- No path leads back down. -/
theorem eq_of_climbs (h : p.Climbs q) (h' : q.Climbs p) : p = q := by
  rw [climbs_iff] at h h'
  cases p <;> cases q <;> simp_all [above]

end Prim

namespace Ty

open Analysis

variable {Γ : TypeScopes} {t t' u u' v : Ty}

theorem isSubtype_of_equiv (h : equiv Γ t u = true) : isSubtype Γ t u = true :=
  Bool.or_eq_true_iff.2 (Or.inl h)

theorem isSubtype_any (Γ : TypeScopes) (t : Ty) : isSubtype Γ t (.prim .any) = true :=
  isSubtype_prim_iff.2 (Or.inr (Or.inl rfl))

/-- Below a primitive type there are those with a path up to it, and below the top all others too. -/
theorem isSubtype_prim_iff_climbs {q : Prim} : isSubtype Γ t (.prim q) = true ↔
    q = .any ∨ ∃ p, t = .prim p ∧ p.Climbs q := by
  rw [isSubtype_prim_iff]
  constructor
  · rintro (rfl | rfl | ⟨p, rfl, h⟩)
    · exact Or.inr ⟨q, rfl, .refl⟩
    · exact Or.inl rfl
    · exact Or.inr ⟨p, rfl, Prim.climbs_of_above h⟩
  · rintro (rfl | ⟨p, rfl, h⟩)
    · exact Or.inr (Or.inl rfl)
    · rcases Prim.climbs_iff.1 h with rfl | rfl | h
      · exact Or.inl rfl
      · exact Or.inr (Or.inl rfl)
      · exact Or.inr (Or.inr ⟨p, rfl, h⟩)

theorem prim_isSubtype_prim_iff {p q : Prim} :
    isSubtype Γ (.prim p) (.prim q) = true ↔ p.Climbs q := by
  rw [isSubtype_prim_iff_climbs]
  constructor
  · rintro (rfl | ⟨p', heq, h⟩)
    · exact p.climbs_any
    · rwa [prim.inj heq]
  · exact fun h => Or.inr ⟨p, rfl, h⟩

/-- A function or object type stands directly below the top. -/
theorem isSubtype_iff_of_ne_prim (ht : ∀ p, t ≠ .prim p) :
    isSubtype Γ t u = true ↔ u = .prim .any ∨ equiv Γ t u = true := by
  constructor
  · intro h
    by_cases hu : ∃ q, u = .prim q
    · obtain ⟨q, rfl⟩ := hu
      rcases isSubtype_prim_iff_climbs.1 h with rfl | ⟨p, rfl, -⟩
      · exact Or.inl rfl
      · exact absurd rfl (ht p)
    · exact Or.inr (equiv_of_isSubtype h fun q hq => hu ⟨q, hq⟩)
  · rintro (rfl | h)
    · exact isSubtype_any Γ t
    · exact isSubtype_of_equiv h

theorem isSubtype_trans (h : isSubtype Γ t u = true) (h' : isSubtype Γ u v = true) :
    isSubtype Γ t v = true := by
  by_cases hu : ∃ q, u = .prim q
  · obtain ⟨q, rfl⟩ := hu
    obtain ⟨r, rfl⟩ := exists_prim_of_isSubtype h'
    have hqr := prim_isSubtype_prim_iff.1 h'
    rcases isSubtype_prim_iff_climbs.1 h with rfl | ⟨p, rfl, hpq⟩
    · obtain rfl := Prim.eq_of_climbs hqr r.climbs_any
      exact isSubtype_any Γ t
    · exact prim_isSubtype_prim_iff.2 (hpq.trans hqr)
  · have htu := equiv_of_isSubtype h fun q hq => hu ⟨q, hq⟩
    rcases (isSubtype_iff_of_ne_prim fun q hq => hu ⟨q, hq⟩).1 h' with rfl | huv
    · exact isSubtype_any Γ t
    · exact isSubtype_of_equiv (equiv_trans htu huv)

theorem isSubtype_antisymm (h : isSubtype Γ t u = true) (h' : isSubtype Γ u t = true) :
    equiv Γ t u = true := by
  by_cases hu : ∃ q, u = .prim q
  · obtain ⟨q, rfl⟩ := hu
    by_cases ht : ∃ p, t = .prim p
    · obtain ⟨p, rfl⟩ := ht
      obtain rfl :=
        Prim.eq_of_climbs (prim_isSubtype_prim_iff.1 h) (prim_isSubtype_prim_iff.1 h')
      exact equiv_refl Γ _
    · exact equiv_symm (equiv_of_isSubtype h' fun p hp => ht ⟨p, hp⟩)
  · exact equiv_of_isSubtype h fun q hq => hu ⟨q, hq⟩

theorem isSubtype_congr (ht : equiv Γ t t' = true) (hu : equiv Γ u u' = true) :
    isSubtype Γ t' u' = isSubtype Γ t u := by
  rw [Bool.eq_iff_iff]
  constructor
  · intro h
    have htu' := isSubtype_trans (isSubtype_of_equiv ht) h
    exact isSubtype_trans htu' (isSubtype_of_equiv (equiv_symm hu))
  · intro h
    have ht'u := isSubtype_trans (isSubtype_of_equiv (equiv_symm ht)) h
    exact isSubtype_trans ht'u (isSubtype_of_equiv hu)

/-- Subtyping is a partial order on the types up to equality, with `Any` at its top: on primitive
types it is the diagram of tiers, and a function or object type has nothing above it but the top and
the types equal to it. A check of it fails where it does not hold, and tells the two types. -/
theorem isSubtype_partial_order (Γ : TypeScopes) :
    (∀ t, isSubtype Γ t t = true) ∧
    (∀ t u v, isSubtype Γ t u = true → isSubtype Γ u v = true → isSubtype Γ t v = true) ∧
    (∀ t u, isSubtype Γ t u = true → isSubtype Γ u t = true → equiv Γ t u = true) ∧
    (∀ t t' u u', equiv Γ t t' = true → equiv Γ u u' = true →
      isSubtype Γ t' u' = isSubtype Γ t u) ∧
    (∀ t, isSubtype Γ t (.prim .any) = true) ∧
    (∀ p q : Prim, isSubtype Γ (.prim p) (.prim q) = true ↔ p.Climbs q) ∧
    (∀ t u, (∀ p, t ≠ .prim p) →
      (isSubtype Γ t u = true ↔ u = .prim .any ∨ equiv Γ t u = true)) ∧
    ∀ t u trace,
      (isSubtype Γ t u = true → requireSubtype t u ⟨Γ, trace⟩ = .ok () ⟨Γ, trace⟩) ∧
      (isSubtype Γ t u = false → ∃ e, requireSubtype t u ⟨Γ, trace⟩ = .error e ⟨Γ, trace⟩ ∧
        e.kind = .typeMismatch ∧ e.actual? = some t ∧ e.expected? = some u) := by
  refine ⟨fun t => isSubtype_of_equiv (equiv_refl Γ t), fun _ _ _ => isSubtype_trans,
    fun _ _ => isSubtype_antisymm, fun _ _ _ _ => isSubtype_congr, isSubtype_any Γ,
    fun _ _ => prim_isSubtype_prim_iff, fun _ _ => isSubtype_iff_of_ne_prim,
    fun t u trace => ⟨fun h => ?_, fun h => ?_⟩⟩
  · rw [requireSubtype_apply, if_pos h]
  · refine ⟨.notSubtype t u, ?_, rfl, rfl, rfl⟩
    rw [requireSubtype_apply, if_neg (by simp [h])]

end Ty

end ObjectLang
