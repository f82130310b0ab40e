import Mathlib.Order.Defs.Unbundled
import ObjectLang.Scope.Lemmas

/-!
Forests that have grown. Both passes add scopes and bind names: `Kept` says that nothing that can be
seen of the old scopes is different, and `Adds` that one of them shows something more, after what it
showed before. What is looked at is a parameter, since evaluation keeps names where analysis keeps
whole bindings.
-/

namespace ObjectLang.Forest

variable {α β : Type} {view : Bindings α → List β} {f g h : Forest α} {s t : ScopeId}
  {name : String} {value : α} {own : Bindings α} {added more : List β}

/-- All scopes of `f` are in `g`, inside the same scopes and with the same view of their own
bindings. -/
structure Kept (view : Bindings α → List β) (f g : Forest α) : Prop where
  size_le : f.size ≤ g.size
  outer_eq : ∀ t, t < f.size → g.outer t = f.outer t
  view_eq : ∀ t, t < f.size → view (g.own t) = view (f.own t)

/-- All scopes of `f` are in `g`, inside the same scopes and with the same view of their own
bindings but for `added`, which comes last in `s`. -/
structure Adds (view : Bindings α → List β) (s : ScopeId) (added : List β) (f g : Forest α) :
    Prop where
  size_le : f.size ≤ g.size
  outer_eq : ∀ t, t < f.size → g.outer t = f.outer t
  view_eq : ∀ t, t < f.size → view (g.own t) = view (f.own t) ++ if t = s then added else []

/-- All scopes of `f` are in `g` with the same names in the same order. -/
abbrev NamesKept : Forest α → Forest α → Prop := Kept Bindings.names

/-- All scopes of `f` are in `g` with the same names in the same order but for `added`, which come
last in `s`. -/
abbrev AddsNames (s : ScopeId) (added : List String) : Forest α → Forest α → Prop :=
  Adds Bindings.names s added

/-- All scopes of `f` are in `g` with the same bindings. -/
abbrev BindingsKept : Forest α → Forest α → Prop := Kept Bindings.entries

/-- All scopes of `f` are in `g` with the same bindings but for `added`, which come last in `s`. -/
abbrev AddsEntries (s : ScopeId) (added : List (String × α)) : Forest α → Forest α → Prop :=
  Adds Bindings.entries s added

theorem Kept.adds (hf : Kept view f g) (s : ScopeId) : Adds view s [] f g :=
  ⟨hf.size_le, hf.outer_eq, fun t ht => by simp [hf.view_eq t ht]⟩

theorem Adds.kept (hf : Adds view s [] f g) : Kept view f g :=
  ⟨hf.size_le, hf.outer_eq, fun t ht => by simp [hf.view_eq t ht]⟩

theorem Adds.trans (hf : Adds view s added f g) (hg : Adds view s more g h) :
    Adds view s (added ++ more) f h where
  size_le := Nat.le_trans hf.size_le hg.size_le
  outer_eq t ht := (hg.outer_eq t (Nat.lt_of_lt_of_le ht hf.size_le)).trans (hf.outer_eq t ht)
  view_eq t ht := by
    rw [hg.view_eq t (Nat.lt_of_lt_of_le ht hf.size_le), hf.view_eq t ht, List.append_assoc]
    split <;> simp

theorem Kept.refl (view : Bindings α → List β) (f : Forest α) : Kept view f f :=
  ⟨Nat.le_refl _, fun _ _ => rfl, fun _ _ => rfl⟩

theorem Kept.trans (hf : Kept view f g) (hg : Kept view g h) : Kept view f h :=
  ((hf.adds 0).trans (hg.adds 0)).kept

theorem Kept.trans_adds (hf : Kept view f g) (hg : Adds view s added g h) : Adds view s added f h :=
  (hf.adds s).trans hg

theorem Adds.trans_kept (hf : Adds view s added f g) (hg : Kept view g h) :
    Adds view s added f h := by
  simpa using hf.trans (hg.adds s)

/-- What a scope gets that was not there before is not seen from before. -/
theorem Kept.trans_adds_new (hf : Kept view f g) (hs : f.size ≤ s) (hg : Adds view s added g h) :
    Kept view f h where
  size_le := Nat.le_trans hf.size_le hg.size_le
  outer_eq t ht := (hg.outer_eq t (Nat.lt_of_lt_of_le ht hf.size_le)).trans (hf.outer_eq t ht)
  view_eq t ht := by
    have hts : t ≠ s := Nat.ne_of_lt (Nat.lt_of_lt_of_le ht hs)
    rw [hg.view_eq t (Nat.lt_of_lt_of_le ht hf.size_le), hf.view_eq t ht]
    simp [hts]

/-- A view that shows no more than the bindings themselves is kept with them. -/
theorem AddsEntries.names {added : List (String × α)} (hf : AddsEntries s added f g) :
    AddsNames s (added.map Prod.fst) f g where
  size_le := hf.size_le
  outer_eq := hf.outer_eq
  view_eq t ht := by
    simp only [Bindings.names, hf.view_eq t ht, List.map_append]
    split <;> simp

theorem BindingsKept.names (hf : BindingsKept f g) : NamesKept f g :=
  (AddsEntries.names (Kept.adds hf 0)).kept

theorem BindingsKept.own_eq (hf : BindingsKept f g) (ht : t < f.size) : g.own t = f.own t :=
  Bindings.ext_entries (hf.view_eq t ht)

/-- Scopes that are not added to have the bindings that they had. -/
theorem AddsEntries.own_eq {added : List (String × α)} (hf : AddsEntries s added f g)
    (ht : t < f.size) (hts : t ≠ s) : g.own t = f.own t :=
  Bindings.ext_entries (by simpa [hts] using hf.view_eq t ht)

theorem kept_addChild : Kept view f (f.addChild t own) where
  size_le := by simp
  outer_eq s hs := by simp [outer_addChild, Nat.ne_of_lt hs]
  view_eq s hs := by simp [own_addChild, Nat.ne_of_lt hs]

theorem kept_addRoot : Kept view f (f.addRoot own) where
  size_le := by simp
  outer_eq s _ := by simp [outer_addRoot]
  view_eq s hs := by simp [own_addRoot, Nat.ne_of_lt hs]

/-- A scope exists, and the scopes around it are older. -/
structure Placed (f : Forest α) (s : ScopeId) : Prop where
  own_lt : s < f.size
  outer_lt : ∀ t ∈ f.outer s, t < s

theorem Placed.chain_lt (hp : Placed f s) (ht : t ∈ f.chain s) : t < f.size := by
  rcases List.mem_cons.1 ht with rfl | ht
  · exact hp.own_lt
  · exact Nat.lt_trans (hp.outer_lt t ht) hp.own_lt

theorem Placed.grow {r : ScopeId} (hp : Placed f s) (h : Adds view r added f g) : Placed g s where
  own_lt := Nat.lt_of_lt_of_le hp.own_lt h.size_le
  outer_lt t ht := hp.outer_lt t (by rwa [← h.outer_eq s hp.own_lt])

theorem placed_addChild (hp : Placed f s) : Placed (f.addChild s own) f.size where
  own_lt := by simp
  outer_lt t ht := hp.chain_lt (by rwa [outer_addChild, if_pos rfl] at ht)

theorem placed_addRoot : Placed (f.addRoot own) f.size where
  own_lt := by simp
  outer_lt t ht := by simp [outer_addRoot, outer_of_size_le] at ht

theorem containsOwn_iff : f.containsOwn s name = true ↔ name ∈ f.names s := Bindings.contains_iff

theorem not_mem_names (h : f.containsOwn s name = false) : name ∉ f.names s :=
  fun hn => by simp [containsOwn_iff.2 hn] at h

/-- Rebinding a name adds none. -/
theorem namesKept_insert (hn : name ∈ f.names s) : NamesKept f (f.insert s name value) where
  size_le := by simp
  outer_eq t _ := outer_insert f t s name value
  view_eq t ht := by
    by_cases hts : t = s
    · subst hts
      rw [own_insert _ _ _ ht, if_pos rfl, Bindings.names_insert, if_pos (Bindings.contains_iff.2 hn)]
    · rw [own_insert_of_ne name value hts]

theorem addsEntries_insert (value : α) (hn : name ∉ f.names s) :
    AddsEntries s [(name, value)] f (f.insert s name value) where
  size_le := by simp
  outer_eq t _ := outer_insert f t s name value
  view_eq t ht := by
    by_cases hts : t = s
    · subst hts
      rw [own_insert _ _ _ ht, if_pos rfl, if_pos rfl, Bindings.entries_insert value hn]
    · simp [own_insert_of_ne name value hts, hts]

/-- A name that has been added can be bound again. -/
theorem AddsEntries.rebind {old : α} (hn : name ∉ f.names s) (h : AddsEntries s [(name, old)] f g)
    (value : α) : AddsEntries s [(name, value)] f (g.insert s name value) where
  size_le := by simpa using h.size_le
  outer_eq t ht := (outer_insert g t s name value).trans (h.outer_eq t ht)
  view_eq t ht := by
    by_cases hts : t = s
    · subst hts
      have hview : (g.own t).entries = (f.own t).entries ++ [(name, old)] := by
        simpa using h.view_eq t ht
      rw [own_insert _ _ _ (Nat.lt_of_lt_of_le ht h.size_le), if_pos rfl, if_pos rfl]
      exact (congrArg (Bindings.put name value) hview).trans (Bindings.put_append_of_not_mem hn)
    · rw [own_insert_of_ne name value hts, h.view_eq t ht, if_neg hts, if_neg hts]

end ObjectLang.Forest
