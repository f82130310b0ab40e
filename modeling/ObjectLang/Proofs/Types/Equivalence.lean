import ObjectLang.Proofs.Types.Settled

/-! Equality of types is an equivalence, and equal types are equal part by part. -/

namespace ObjectLang.Ty

variable {Γ : TypeScopes} {R S : Ty → Ty → Prop} {t u v : Ty}

theorem Matches.symm (h : Matches Γ R t u) : Matches Γ (fun u t => R t u) u t := by
  cases h with
  | prim p => exact .prim p
  | fn hp hr => exact .fn hp.flip hr
  | object hn hm => exact .object (fun n => (hn n).symm) fun n t u ht hu => hm n u t hu ht

theorem forall₂_comp {ts us vs : List Ty} (h : List.Forall₂ R ts us) (h' : List.Forall₂ S us vs) :
    List.Forall₂ (Relation.Comp R S) ts vs := by
  induction h generalizing vs with
  | nil =>
    cases h'
    exact .nil
  | cons hr _ ih =>
    cases h' with
    | cons hs h' => exact .cons ⟨_, hr, hs⟩ (ih h')

theorem Matches.trans (h : Matches Γ R t u) (h' : Matches Γ S u v) :
    Matches Γ (Relation.Comp R S) t v := by
  cases h with
  | prim p =>
    cases h'
    exact .prim p
  | fn hp hr =>
    cases h' with
    | fn hp' hr' =>
      exact .fn (forall₂_comp hp hp') ⟨_, hr, hr'⟩
  | object hn hm =>
    cases h' with
    | object hn' hm' =>
      refine .object (fun n => (hn n).trans (hn' n)) fun n t w ht hw => ?_
      obtain ⟨u, hu⟩ := Bindings.mem_names_iff.1 ((hn n).1 (Bindings.mem_names_iff.2 ⟨t, ht⟩))
      exact ⟨u, hm n t u ht hu, hm' n u w hu hw⟩

/-- Equal types have the same shape, and equal parts. -/
theorem matches_of_equiv (h : equiv Γ t u = true) :
    Matches Γ (fun t u => equiv Γ t u = true) t u := by
  obtain ⟨R, hR, htu⟩ := equiv_iff_bisimilar.1 h
  exact (hR t u htu).mono fun v w hvw => equiv_iff_bisimilar.2 ⟨R, hR, hvw⟩

theorem equiv_refl (Γ : TypeScopes) (t : Ty) : equiv Γ t t = true :=
  equiv_iff_bisimilar.2 ⟨Eq, fun t _ h => h ▸ .refl (fun _ => rfl) t, rfl⟩

theorem equiv_symm (h : equiv Γ t u = true) : equiv Γ u t = true :=
  equiv_iff_bisimilar.2 ⟨_, fun _ _ h => (matches_of_equiv h).symm, h⟩

theorem equiv_trans (h : equiv Γ t u = true) (h' : equiv Γ u v = true) : equiv Γ t v = true := by
  refine equiv_iff_bisimilar.2 ⟨Relation.Comp (fun t u => equiv Γ t u = true)
    fun u v => equiv Γ u v = true, ?_, u, h, h'⟩
  rintro t v ⟨u, h, h'⟩
  exact (matches_of_equiv h).trans (matches_of_equiv h')

/-- Above a function or object type there are only the types equal to it, and primitive ones. -/
theorem equiv_of_isSubtype (h : isSubtype Γ t u = true) (hu : ∀ p, u ≠ .prim p) :
    equiv Γ t u = true := by
  rcases Bool.or_eq_true_iff.1 h with h | h
  · exact h
  · split at h
    · exact absurd rfl (hu _)
    · exact absurd rfl (hu _)
    · cases h

/-- Above a primitive type there are only primitive types. -/
theorem exists_prim_of_isSubtype {p : Prim} (h : isSubtype Γ (.prim p) t = true) :
    ∃ q, t = .prim q := by
  rcases Bool.or_eq_true_iff.1 h with h | h
  · exact ⟨p, prim_equiv_iff.1 h⟩
  · split at h
    · exact ⟨_, rfl⟩
    · exact ⟨_, rfl⟩
    · cases h

end ObjectLang.Ty
