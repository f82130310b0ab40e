import ObjectLang.Proofs.Scope.Growth

/-!
What a scope sees after each operation on a forest. A name is looked up in the scope itself first, so
a new binding in it hides what is around, and nothing else changes what it sees.
-/

namespace ObjectLang.Forest

variable {α : Type} {f g : Forest α} {s : ScopeId} {name other : String} {value : α}
  {own : Bindings α}

theorem lookup_eq : f.lookup s name =
    (f.lookupOwn s name).or ((f.outer s).findSome? fun t => f.lookupOwn t name) := by
  rw [lookup, chain, List.findSome?_cons]
  cases f.lookupOwn s name <;> rfl

theorem lookup_congr (houter : g.outer s = f.outer s) (hown : ∀ t ∈ f.chain s, g.own t = f.own t) :
    g.lookup s name = f.lookup s name := by
  have hchain : g.chain s = f.chain s := by rw [chain, houter, chain]
  rw [lookup, lookup, hchain]
  generalize f.chain s = ts at hown
  induction ts with
  | nil => rfl
  | cons t ts ih =>
    obtain ⟨ht, hts⟩ := List.forall_mem_cons.1 hown
    rw [List.findSome?_cons, List.findSome?_cons, ih hts, lookupOwn, ht, lookupOwn]

theorem lookup_of_kept (hp : Placed f s) (h : BindingsKept f g) :
    g.lookup s name = f.lookup s name :=
  lookup_congr (h.outer_eq s hp.own_lt) fun _ ht => h.own_eq (hp.chain_lt ht)

theorem containsOwn_of_kept (hp : Placed f s) (h : BindingsKept f g) :
    g.containsOwn s name = f.containsOwn s name := by
  rw [containsOwn, h.own_eq hp.own_lt, containsOwn]

theorem lookup_addChild (hp : Placed f s) :
    (f.addChild s own).lookup f.size name = (own.find? name).or (f.lookup s name) := by
  have hchain : (f.addChild s own).chain s = f.chain s := by
    rw [chain, outer_addChild, if_neg (Nat.ne_of_lt hp.own_lt), chain]
  have hkept : BindingsKept f (f.addChild s own) := kept_addChild
  rw [← lookup_of_kept hp hkept, lookup_eq, outer_addChild, if_pos rfl, lookupOwn, own_addChild,
    if_pos rfl, ← hchain, lookup]

theorem lookup_addRoot : (f.addRoot own).lookup f.size name = own.find? name := by
  rw [lookup_eq, outer_addRoot, outer_of_size_le (Nat.le_refl _), lookupOwn, own_addRoot, if_pos rfl]
  exact Option.or_none

theorem containsOwn_insert (hs : s < f.size) :
    (f.insert s name value).containsOwn s other = (decide (name = other) || f.containsOwn s other) := by
  rw [containsOwn, own_insert _ _ _ hs, if_pos rfl, Bool.eq_iff_iff, Bindings.contains_iff,
    Bindings.mem_names_iff]
  simp only [Bindings.find?_insert, Bool.or_eq_true, decide_eq_true_iff, containsOwn,
    Bindings.contains_iff, Bindings.mem_names_iff]
  by_cases h : name = other <;> simp [h]

theorem lookupOwn_insert_eq (hs : s < f.size) (t : ScopeId) (other : String) :
    (f.insert s name value).lookupOwn t other =
      if t = s ∧ other = name then some value else f.lookupOwn t other := by
  rw [lookupOwn, own_insert _ _ _ hs]
  by_cases ht : t = s
  · rw [if_pos ht, Bindings.find?_insert, ht]
    by_cases hn : name = other
    · simp [hn]
    · simp [hn, Ne.symm hn, lookupOwn]
  · simp [ht, lookupOwn]

theorem lookupOwn_insert {t : ScopeId} {w : α}
    (h : (f.insert s name value).lookupOwn t other = some w) :
    f.lookupOwn t other = some w ∨ t = s ∧ other = name ∧ w = value := by
  by_cases hs : s < f.size
  · rw [lookupOwn_insert_eq hs] at h
    split at h
    · next ht => exact Or.inr ⟨ht.1, ht.2, (Option.some.inj h).symm⟩
    · exact Or.inl h
  · by_cases ht : t = s
    · rw [lookupOwn, own_of_size_le (by simpa [ht] using hs)] at h
      cases h
    · rw [lookupOwn, own_insert_of_ne name value ht] at h
      exact Or.inl h

theorem lookup_insert (hp : Placed f s) : (f.insert s name value).lookup s other =
    if name = other then some value else f.lookup s other := by
  have hrest : ((f.outer s).findSome? fun t => (f.insert s name value).lookupOwn t other) =
      (f.outer s).findSome? fun t => f.lookupOwn t other := by
    have hlt := hp.outer_lt
    generalize f.outer s = ts at hlt
    induction ts with
    | nil => rfl
    | cons t ts ih =>
      obtain ⟨ht, hts⟩ := List.forall_mem_cons.1 hlt
      rw [List.findSome?_cons, List.findSome?_cons, ih hts, lookupOwn,
        own_insert_of_ne name value (Nat.ne_of_lt ht), lookupOwn]
  rw [lookup_eq, lookup_eq, outer_insert, hrest, lookupOwn, own_insert _ _ _ hp.own_lt, if_pos rfl,
    Bindings.find?_insert, lookupOwn]
  split <;> rfl

end ObjectLang.Forest
