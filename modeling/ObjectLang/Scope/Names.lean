/-! Lists of names that must not repeat. -/

namespace ObjectLang

/-- The first name of a list that stands before it in the list, or among `seen`. -/
def firstRepeat? (seen : List String) : List String → Option String
  | [] => none
  | n :: ns => if n ∈ seen then some n else firstRepeat? (n :: seen) ns

theorem firstRepeat?_eq_none_iff {seen ns : List String} :
    firstRepeat? seen ns = none ↔ ns.Nodup ∧ ∀ n ∈ ns, n ∉ seen := by
  induction ns generalizing seen with
  | nil => simp [firstRepeat?]
  | cons n ns ih =>
    by_cases h : n ∈ seen
    · simp [firstRepeat?, h]
    · simp only [firstRepeat?, h, if_false, ih, List.nodup_cons, List.mem_cons]
      constructor
      · rintro ⟨hd, hs⟩
        exact ⟨⟨fun hm => (hs n hm) (Or.inl rfl), hd⟩,
          fun m hm => hm.elim (fun he => he ▸ h) fun hm hs' => hs m hm (Or.inr hs')⟩
      · rintro ⟨⟨hn, hd⟩, hs⟩
        exact ⟨hd, fun m hm ho => ho.elim (fun he => hn (he ▸ hm)) fun ho => hs m (Or.inr hm) ho⟩

theorem nodup_of_firstRepeat?_eq_none {ns : List String} (h : firstRepeat? [] ns = none) :
    ns.Nodup :=
  (firstRepeat?_eq_none_iff.1 h).1

end ObjectLang
