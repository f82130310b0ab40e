import ObjectLang.Proofs.Types.Bisimulation
import ObjectLang.Types.Subtype

/-!
Types in scopes that go on growing. What a type is depends on the members of the object types that
it leads to, and on nothing else: while these stay the same, so does every answer about the type.
-/

namespace ObjectLang

namespace Ty

mutual

/-- The object types that a type is written with. -/
def objects : Ty → List ScopeId
  | prim _ => []
  | fn params returns => objectsAll params ++ objects returns
  | object members => [members]

def objectsAll : List Ty → List ScopeId
  | [] => []
  | t :: ts => objects t ++ objectsAll ts

end

theorem mem_objectsAll {a : ScopeId} {ts : List Ty} :
    a ∈ objectsAll ts ↔ ∃ t ∈ ts, a ∈ objects t := by
  induction ts with
  | nil => simp [objectsAll]
  | cons t ts ih => simp [objectsAll, ih]

end Ty

namespace Forest

open Ty

variable {Γ Γ₁ Γ₂ Γ' : TypeScopes} {R : Ty → Ty → Prop} {t u : Ty}

/-- The type of some name is written with the object type `a`. -/
def Refers (Γ : TypeScopes) (a : ScopeId) : Prop :=
  ∃ s name t, Γ.lookupOwn s name = some t ∧ a ∈ t.objects

/-- A type is written with such object types only as are found in the scopes. -/
def Knows (Γ : TypeScopes) (t : Ty) : Prop := ∀ a ∈ t.objects, Γ.Refers a

/-- The object types that are found in `Γ` have the same members in `Γ'`. -/
def Settled (Γ Γ' : TypeScopes) : Prop := ∀ a, Γ.Refers a → Γ'.own a = Γ.own a

theorem knows_prim (p : Prim) : Γ.Knows (.prim p) := by simp [Knows, objects]

theorem knows_fn {params : List Ty} {returns : Ty} :
    Γ.Knows (.fn params returns) ↔ (∀ t ∈ params, Γ.Knows t) ∧ Γ.Knows returns := by
  simp only [Knows, objects, List.mem_append, mem_objectsAll]
  constructor
  · intro h
    exact ⟨fun t ht a ha => h a (Or.inl ⟨t, ht, ha⟩), fun a ha => h a (Or.inr ha)⟩
  · rintro ⟨hp, hr⟩ a (⟨t, ht, ha⟩ | ha)
    · exact hp t ht a ha
    · exact hr a ha

theorem knows_lookupOwn {s : ScopeId} {name : String} (h : Γ.lookupOwn s name = some t) :
    Γ.Knows t := fun _ ha => ⟨s, name, t, h, ha⟩

/-- Related types stay related where the object types that they lead to have the same members. -/
theorem isBisimulation_of_settled (hR : IsBisimulation Γ₁ R) (h₁ : Settled Γ Γ₁)
    (h₂ : Settled Γ Γ₂) :
    IsBisimulation Γ₂ fun t u => R t u ∧ Γ.Knows t ∧ Γ.Knows u := by
  rintro t u ⟨htu, ht, hu⟩
  cases hR t u htu with
  | prim p => exact .prim p
  | @fn ps qs r s hp hr =>
    obtain ⟨htp, htr⟩ := knows_fn.1 ht
    obtain ⟨hup, hur⟩ := knows_fn.1 hu
    refine .fn ?_ ⟨hr, htr, hur⟩
    obtain ⟨hl, hz⟩ := List.forall₂_iff_zip.1 hp
    refine List.forall₂_iff_zip.2 ⟨hl, fun {v w} hvw => ⟨hz hvw, ?_, ?_⟩⟩
    · exact htp v (List.of_mem_zip hvw).1
    · exact hup w (List.of_mem_zip hvw).2
  | @object a b hn hm =>
    have ha : Γ.Refers a := ht a (by simp [objects])
    have hb : Γ.Refers b := hu b (by simp [objects])
    have hown {c : ScopeId} (hc : Γ.Refers c) : Γ₁.own c = Γ.own c ∧ Γ₂.own c = Γ.own c :=
      ⟨h₁ c hc, h₂ c hc⟩
    refine .object (fun n => ?_) fun n v w hv hw => ?_
    · simpa only [names, (hown ha).1, (hown ha).2, (hown hb).1, (hown hb).2] using hn n
    · simp only [lookupOwn, (hown ha).2, (hown hb).2] at hv hw
      refine ⟨hm n v w ?_ ?_, knows_lookupOwn hv, knows_lookupOwn hw⟩
      · simpa only [lookupOwn, (hown ha).1] using hv
      · simpa only [lookupOwn, (hown hb).1] using hw

theorem settled_refl (Γ : TypeScopes) : Settled Γ Γ := fun _ _ => rfl

theorem equiv_of_settled (h : Settled Γ Γ') (ht : Γ.Knows t) (hu : Γ.Knows u) :
    equiv Γ' t u = equiv Γ t u := by
  rw [Bool.eq_iff_iff, equiv_iff_bisimilar, equiv_iff_bisimilar]
  constructor
  · rintro ⟨R, hR, htu⟩
    exact ⟨_, isBisimulation_of_settled hR h (settled_refl Γ), htu, ht, hu⟩
  · rintro ⟨R, hR, htu⟩
    exact ⟨_, isBisimulation_of_settled hR (settled_refl Γ) h, htu, ht, hu⟩

theorem isSubtype_of_settled (h : Settled Γ Γ') (ht : Γ.Knows t) (hu : Γ.Knows u) :
    isSubtype Γ' t u = isSubtype Γ t u := by
  simp only [isSubtype, equiv_of_settled h ht hu]

end Forest

namespace Ty

variable {Γ : TypeScopes} {t : Ty}

/-- No type but a primitive one itself is equal to it. -/
theorem equiv_prim_iff {p : Prim} : equiv Γ t (.prim p) = true ↔ t = .prim p := by
  rw [equiv_iff_bisimilar]
  constructor
  · rintro ⟨R, hR, h⟩
    cases hR _ _ h
    rfl
  · rintro rfl
    exact ⟨fun t u => t = u, fun t u h => h ▸ .refl (fun _ => rfl) t, rfl⟩

theorem prim_equiv_iff {p : Prim} : equiv Γ (.prim p) t = true ↔ t = .prim p := by
  rw [equiv_iff_bisimilar]
  constructor
  · rintro ⟨R, hR, h⟩
    cases hR _ _ h
    rfl
  · rintro rfl
    exact ⟨fun t u => t = u, fun t u h => h ▸ .refl (fun _ => rfl) t, rfl⟩

theorem isSubtype_prim_iff {q : Prim} : isSubtype Γ t (.prim q) = true ↔
    t = .prim q ∨ q = .any ∨ ∃ p, t = .prim p ∧ q ∈ p.above := by
  unfold isSubtype
  rw [Bool.or_eq_true, equiv_prim_iff]
  refine or_congr_right ?_
  split
  · next h => simp [prim.inj h]
  · next p r hany h =>
    obtain rfl := prim.inj h
    have hany : q ≠ .any := fun h => hany (h ▸ rfl)
    simp [hany]
  · next hany hprim =>
    have hany : q ≠ .any := fun h => hany (h ▸ rfl)
    simp only [hany, false_or, Bool.false_eq_true, false_iff, not_exists, not_and]
    exact fun p ht => (hprim p q ht rfl).elim

theorem isSubtype_boolean_iff : isSubtype Γ t (.prim .boolean) = true ↔ t = .prim .boolean := by
  rw [isSubtype_prim_iff]
  constructor
  · rintro (h | h | ⟨p, rfl, hp⟩)
    · exact h
    · cases h
    · cases p <;> simp [Prim.above] at hp
  · exact Or.inl

/-- A tier below `Any` has primitive types below it only. -/
theorem eq_prim_of_isSubtype {q : Prim} (h : isSubtype Γ t (.prim q) = true) (hq : q ≠ .any) :
    ∃ p, t = .prim p := by
  rcases isSubtype_prim_iff.1 h with rfl | h | ⟨p, rfl, -⟩
  · exact ⟨q, rfl⟩
  · exact absurd h hq
  · exact ⟨p, rfl⟩

end Ty

end ObjectLang
