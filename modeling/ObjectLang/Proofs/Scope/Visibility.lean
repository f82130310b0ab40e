import ObjectLang.Proofs.Scope.Growth

/-!
Which names are seen from a scope, and what becomes of them as the forest grows. A name that is seen
once is always seen. The names around a scope stay the same as long as only the scope itself, or new
ones, get names.
-/

namespace ObjectLang.Forest

variable {α : Type} {f g : Forest α} {s t : ScopeId} {name : String} {value : α} {own : Bindings α}
  {added : List String}

/-- The names of the scopes around a scope, nearest first. -/
def namesAround (f : Forest α) (s : ScopeId) : List String := (f.outer s).flatMap f.names

/-- The names that are seen from a scope, its own first. -/
def namesFrom (f : Forest α) (s : ScopeId) : List String := f.names s ++ f.namesAround s

theorem mem_namesFrom : name ∈ f.namesFrom s ↔ ∃ t ∈ f.chain s, name ∈ f.names t := by
  simp [namesFrom, namesAround, chain]

theorem contains_iff : f.contains s name = true ↔ name ∈ f.namesFrom s := by
  simp [contains, mem_namesFrom, containsOwn_iff]

theorem exists_lookup (h : name ∈ f.namesFrom s) : ∃ value, f.lookup s name = some value := by
  obtain ⟨t, ht, hn⟩ := mem_namesFrom.1 h
  obtain ⟨v, hv⟩ := Bindings.mem_names_iff.1 hn
  rw [← Option.isSome_iff_exists, lookup, List.findSome?_isSome_iff]
  exact ⟨t, ht, by simp [lookupOwn, hv]⟩

theorem mem_namesFrom_of_lookup (h : f.lookup s name = some value) : name ∈ f.namesFrom s := by
  obtain ⟨t, ht, hv⟩ := List.exists_of_findSome?_eq_some h
  exact mem_namesFrom.2 ⟨t, ht, Bindings.mem_names_iff.2 ⟨value, hv⟩⟩

theorem exists_owner (h : name ∈ f.namesFrom s) : ∃ t, f.owner? s name = some t := by
  obtain ⟨t, ht, hn⟩ := mem_namesFrom.1 h
  rw [← Option.isSome_iff_exists, owner?, List.find?_isSome]
  exact ⟨t, ht, containsOwn_iff.2 hn⟩

/-- What is looked up is found in the nearest scope that has the name. -/
theorem owner_of_lookup (h : f.lookup s name = some value) :
    ∃ t, f.owner? s name = some t ∧ f.lookupOwn t name = some value := by
  rw [lookup] at h
  rw [owner?]
  generalize f.chain s = scopes at h
  induction scopes with
  | nil => cases h
  | cons t ts ih =>
    rw [List.findSome?_cons] at h
    cases hv : f.lookupOwn t name with
    | some v =>
      rw [hv] at h
      exact ⟨t, List.find?_cons_of_pos (containsOwn_iff.2 (Bindings.mem_names_iff.2 ⟨v, hv⟩)),
        hv.trans h⟩
    | none =>
      rw [hv] at h
      rw [List.find?_cons_of_neg]
      · exact ih h
      · rw [containsOwn_iff]
        exact Bindings.find?_eq_none_iff.1 hv

theorem mem_names_of_owner {t : ScopeId} (h : f.owner? s name = some t) : name ∈ f.names t :=
  containsOwn_iff.1 (by simpa using List.find?_some h)

theorem owner_of_mem_names (h : name ∈ f.names s) : f.owner? s name = some s :=
  List.find?_cons_of_pos (containsOwn_iff.2 h)

theorem lt_size_of_mem_names (h : name ∈ f.names s) : s < f.size := by
  apply Nat.lt_of_not_le
  intro hs
  rw [names, own_of_size_le hs] at h
  cases h

/-- What is seen once is always seen. -/
theorem AddsNames.mem_namesFrom {r : ScopeId} (h : AddsNames r added f g)
    (hn : name ∈ f.namesFrom s) : name ∈ g.namesFrom s := by
  obtain ⟨t, ht, hn⟩ := Forest.mem_namesFrom.1 hn
  have hnames (u : ScopeId) (hu : name ∈ f.names u) : name ∈ g.names u := by
    have hview : g.names u = f.names u ++ if u = r then added else [] :=
      h.view_eq u (lt_size_of_mem_names hu)
    rw [hview]
    exact List.mem_append_left _ hu
  refine Forest.mem_namesFrom.2 ⟨t, ?_, hnames t hn⟩
  by_cases hs : s < f.size
  · rwa [chain, h.outer_eq s hs]
  · rw [chain, outer_of_size_le (Nat.le_of_not_lt hs)] at ht
    rw [List.mem_singleton.1 ht]
    exact List.mem_cons_self ..

theorem NamesKept.mem_namesFrom (h : NamesKept f g) (hn : name ∈ f.namesFrom s) :
    name ∈ g.namesFrom s :=
  AddsNames.mem_namesFrom (h.adds 0) hn

section Placed

variable (hp : Placed f s)
include hp

/-- A scope that is no older gets names. -/
theorem namesAround_of_adds_le {r : ScopeId} (h : AddsNames r added f g) (hr : s ≤ r) :
    g.namesAround s = f.namesAround s := by
  rw [namesAround, namesAround, h.outer_eq s hp.own_lt, List.flatMap_def, List.flatMap_def]
  refine congrArg List.flatten (List.map_congr_left fun t ht => ?_)
  have htr : t ≠ r := Nat.ne_of_lt (Nat.lt_of_lt_of_le (hp.outer_lt t ht) hr)
  have hview := h.view_eq t (Nat.lt_trans (hp.outer_lt t ht) hp.own_lt)
  simpa [names, htr] using hview

theorem namesAround_of_adds (h : AddsNames s added f g) : g.namesAround s = f.namesAround s :=
  namesAround_of_adds_le hp h (Nat.le_refl s)

theorem names_of_adds_lt {r : ScopeId} (h : AddsNames r added f g) (hr : s < r) :
    g.names s = f.names s := by
  simpa [names, Nat.ne_of_lt hr] using h.view_eq s hp.own_lt

theorem names_of_adds (h : AddsNames s added f g) : g.names s = f.names s ++ added := by
  simpa [names] using h.view_eq s hp.own_lt

theorem chain_of_adds {r : ScopeId} (h : AddsNames r added f g) : g.chain s = f.chain s := by
  rw [chain, chain, h.outer_eq s hp.own_lt]

theorem namesFrom_of_kept (h : NamesKept f g) : g.namesFrom s = f.namesFrom s := by
  have hadds := h.adds s
  rw [namesFrom, names_of_adds hp hadds, namesAround_of_adds hp hadds, List.append_nil, namesFrom]

theorem namesAround_addChild : (f.addChild s own).namesAround f.size = f.namesFrom s := by
  have hkept : NamesKept f (f.addChild s own) := kept_addChild
  rw [← namesFrom_of_kept hp hkept, namesAround, outer_addChild, if_pos rfl,
    ← chain_of_adds hp (hkept.adds s)]
  rfl

end Placed

theorem names_addChild : (f.addChild s own).names f.size = own.names := by
  rw [names, own_addChild, if_pos rfl]

theorem names_addRoot : (f.addRoot own).names f.size = own.names := by
  rw [names, own_addRoot, if_pos rfl]

theorem namesAround_addRoot : (f.addRoot own).namesAround f.size = [] := by
  rw [namesAround, outer_addRoot, outer_of_size_le (Nat.le_refl _), List.flatMap_nil]

end ObjectLang.Forest
