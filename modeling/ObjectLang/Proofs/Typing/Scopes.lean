import ObjectLang.Proofs.Scope.Growth
import ObjectLang.Proofs.Types.Settled
import ObjectLang.Proofs.Typing.Rules

/-!
The scopes of types while analysis goes on. A scope gets names only as long as no type is written
with it: the members of an object are all there when the object's type is first bound to a name. So
every type that a name has leads to object types that are settled.
-/

namespace ObjectLang.Forest

variable {Γ Γ₁ Γ₂ : TypeScopes} {s a : ScopeId} {name : String} {t : Ty}
  {added : List (String × Ty)} {own : Bindings Ty}

/-- The environment of a scope. -/
def env (Γ : TypeScopes) (s : ScopeId) : Typed.Env := (Γ.chain s).map fun t => (Γ.own t).entries

/-- `s` exists, and so do all object types. -/
structure Grounded (Γ : TypeScopes) (s : ScopeId) : Prop extends Placed Γ s where
  refers_lt : ∀ a, Γ.Refers a → a < Γ.size

/-- A scope can get names without a type getting members. -/
structure Open (Γ : TypeScopes) (s : ScopeId) : Prop extends Grounded Γ s where
  not_refers : ¬ Γ.Refers s

/-- `s` exists, and it is not the members of an object type if it is to get any of the names. -/
structure Accepts (Γ : TypeScopes) (s : ScopeId) (names : List String) : Prop
    extends Grounded Γ s where
  eq_nil : Γ.Refers s → names = []

/-- Object types that are not found in `Γ₁` are those of new scopes. -/
structure FindsNew (Γ₁ Γ₂ : TypeScopes) : Prop where
  size_le : Γ₁.size ≤ Γ₂.size
  refers_new : ∀ a, Γ₂.Refers a → Γ₁.Refers a ∨ Γ₁.size ≤ a ∧ a < Γ₂.size

/-- Every type of `Γ₁` stays what it is, and new object types are those of new scopes. -/
structure Advances (Γ₁ Γ₂ : TypeScopes) : Prop extends FindsNew Γ₁ Γ₂ where
  settled : Settled Γ₁ Γ₂
  refers_mono : ∀ a, Γ₁.Refers a → Γ₂.Refers a

theorem lookup_env : (Γ.env s).lookup name = Γ.lookup s name := List.findSome?_map

theorem knows_lookup (h : Γ.lookup s name = some t) : Γ.Knows t := by
  obtain ⟨_, _, h⟩ := List.exists_of_findSome?_eq_some h
  exact knows_lookupOwn h

theorem refers_of_knows (h : Γ.Knows (.object a)) : Γ.Refers a := h a (by simp [Ty.objects])

theorem not_refers_empty : ¬ (∅ : TypeScopes).Refers a := by
  rintro ⟨_, _, _, hl, -⟩
  rw [lookupOwn, own_of_size_le (Nat.zero_le _)] at hl
  cases hl

theorem forall_refers {P : ScopeId → Prop}
    (h : ∀ s < Γ.size, ∀ e ∈ (Γ.own s).entries, ∀ a ∈ e.2.objects, P a) (ha : Γ.Refers a) : P a := by
  obtain ⟨s, name, t, hl, ha⟩ := ha
  by_cases hs : s < Γ.size
  · exact h s hs _ (Bindings.find?_eq_some_iff.1 hl) a ha
  · rw [lookupOwn, own_of_size_le (Nat.le_of_not_lt hs)] at hl
    cases hl

theorem Settled.trans {Γ₃ : TypeScopes} (h : Advances Γ₁ Γ₂) (hs : Settled Γ₂ Γ₃) : Settled Γ₁ Γ₃ :=
  fun a ha => (hs a (h.refers_mono a ha)).trans (h.settled a ha)

theorem FindsNew.refl (Γ : TypeScopes) : FindsNew Γ Γ := ⟨Nat.le_refl _, fun _ => Or.inl⟩

theorem FindsNew.trans {Γ₃ : TypeScopes} (h₁ : FindsNew Γ₁ Γ₂) (h₂ : FindsNew Γ₂ Γ₃) :
    FindsNew Γ₁ Γ₃ where
  size_le := Nat.le_trans h₁.size_le h₂.size_le
  refers_new a ha := by
    rcases h₂.refers_new a ha with ha | ⟨hle, hlt⟩
    · exact (h₁.refers_new a ha).imp_right fun h => ⟨h.1, Nat.lt_of_lt_of_le h.2 h₂.size_le⟩
    · exact Or.inr ⟨Nat.le_trans h₁.size_le hle, hlt⟩

theorem Advances.refl (Γ : TypeScopes) : Advances Γ Γ where
  toFindsNew := .refl Γ
  settled := settled_refl Γ
  refers_mono _ := id

theorem Advances.trans {Γ₃ : TypeScopes} (h₁ : Advances Γ₁ Γ₂) (h₂ : Advances Γ₂ Γ₃) :
    Advances Γ₁ Γ₃ where
  toFindsNew := h₁.toFindsNew.trans h₂.toFindsNew
  settled := h₂.settled.trans h₁
  refers_mono a ha := h₂.refers_mono a (h₁.refers_mono a ha)

theorem Advances.knows (h : Advances Γ₁ Γ₂) (ht : Γ₁.Knows t) : Γ₂.Knows t :=
  fun a ha => h.refers_mono a (ht a ha)

theorem FindsNew.refers_lt (h : FindsNew Γ₁ Γ₂) (hlt : ∀ a, Γ₁.Refers a → a < Γ₁.size)
    (ha : Γ₂.Refers a) : a < Γ₂.size := by
  rcases h.refers_new a ha with ha | ha
  · exact Nat.lt_of_lt_of_le (hlt a ha) h.size_le
  · exact ha.2

theorem refers_mono_of_adds (h : AddsEntries s added Γ₁ Γ₂) (ha : Γ₁.Refers a) : Γ₂.Refers a := by
  obtain ⟨r, name, t, hl, hat⟩ := ha
  have hr : r < Γ₁.size := by
    by_contra hr
    rw [lookupOwn, own_of_size_le (Nat.le_of_not_lt hr)] at hl
    simp [Bindings.find?, Bindings.findIn, EmptyCollection.emptyCollection, Bindings.empty] at hl
  refine ⟨r, name, t, Bindings.find?_eq_some_iff.2 ?_, hat⟩
  rw [h.view_eq r hr]
  exact List.mem_append_left _ (Bindings.find?_eq_some_iff.1 hl)

/-- What has been added is new, and so no type that was there leads to it. -/
theorem advances_of_adds (h : AddsEntries s added Γ₁ Γ₂) (hlt : ∀ a, Γ₁.Refers a → a < Γ₁.size)
    (hs : ¬ Γ₁.Refers s)
    (hnew : ∀ a, Γ₂.Refers a → Γ₁.Refers a ∨ Γ₁.size ≤ a ∧ a < Γ₂.size) : Advances Γ₁ Γ₂ where
  size_le := h.size_le
  settled a ha := by
    have has : a ≠ s := by
      rintro rfl
      exact hs ha
    exact Bindings.ext_entries (by simpa [has] using h.view_eq a (hlt a ha))
  refers_mono _ := refers_mono_of_adds h
  refers_new := hnew

/-- No object type is found through a new scope that has primitive types and functions of them. -/
theorem refers_of_own_eq {s : ScopeId} (h : ∀ r, Γ₂.own r = if r = s then own else Γ₁.own r)
    (hown : ∀ e ∈ own.entries, e.2.objects = []) (ha : Γ₂.Refers a) : Γ₁.Refers a := by
  obtain ⟨r, name, t, hl, hat⟩ := ha
  rw [lookupOwn, h r] at hl
  split at hl
  · rw [hown (name, t) (Bindings.find?_eq_some_iff.1 hl)] at hat
    simp at hat
  · exact ⟨r, name, t, hl, hat⟩

theorem refers_insert (hs : s < Γ.size) (h : (Γ.insert s name t).Refers a) :
    Γ.Refers a ∨ a ∈ t.objects := by
  obtain ⟨r, n, u, hl, hau⟩ := h
  rw [lookupOwn, own_insert _ _ _ hs] at hl
  split at hl
  · rw [Bindings.find?_insert] at hl
    split at hl
    · cases hl
      exact Or.inr hau
    · exact Or.inl ⟨s, n, u, hl, hau⟩
  · exact Or.inl ⟨r, n, u, hl, hau⟩

theorem Open.accepts (ho : Open Γ s) (names : List String) : Accepts Γ s names :=
  ⟨ho.toGrounded, fun h => (ho.not_refers h).elim⟩

section Taken

variable {names more : List String}

theorem Accepts.isOpen (h : Accepts Γ s names) (hne : names ≠ []) : Open Γ s :=
  ⟨h.toGrounded, fun hs => hne (h.eq_nil hs)⟩

theorem accepts_append : Accepts Γ s (names ++ more) ↔ Accepts Γ s names ∧ Accepts Γ s more := by
  constructor
  · intro h
    have hnil (hs : Γ.Refers s) := List.append_eq_nil_iff.1 (h.eq_nil hs)
    exact ⟨⟨h.toGrounded, fun hs => (hnil hs).1⟩, h.toGrounded, fun hs => (hnil hs).2⟩
  · rintro ⟨h, h'⟩
    exact ⟨h.toGrounded, fun hs => List.append_eq_nil_iff.2 ⟨h.eq_nil hs, h'.eq_nil hs⟩⟩

end Taken

section Grown

variable (hg : Grounded Γ₁ s)
include hg

theorem Grounded.not_refers_size : ¬ Γ₁.Refers Γ₁.size := fun h =>
  Nat.lt_irrefl _ (hg.refers_lt _ h)

theorem Grounded.grow {r : ScopeId} (h : AddsEntries r added Γ₁ Γ₂) (ha : FindsNew Γ₁ Γ₂) :
    Grounded Γ₂ s where
  toPlaced := hg.toPlaced.grow h
  refers_lt _ := ha.refers_lt hg.refers_lt

theorem Grounded.refers_of_findsNew (ha : FindsNew Γ₁ Γ₂) (h : Γ₂.Refers s) : Γ₁.Refers s :=
  (ha.refers_new s h).resolve_right fun hs => Nat.not_lt.2 hs.1 hg.own_lt

theorem env_of_kept (h : BindingsKept Γ₁ Γ₂) : Γ₂.env s = Γ₁.env s := by
  rw [env, chain, h.outer_eq s hg.own_lt]
  exact List.map_congr_left fun t ht => h.view_eq t (hg.chain_lt ht)

theorem env_of_adds (h : AddsEntries s added Γ₁ Γ₂) : Γ₂.env s = (Γ₁.env s).extend added := by
  have hown : (Γ₂.own s).entries = (Γ₁.own s).entries ++ added := by
    simpa using h.view_eq s hg.own_lt
  rw [env, env, chain, chain, h.outer_eq s hg.own_lt, List.map_cons, List.map_cons, hown]
  refine congrArg (_ :: ·) (List.map_congr_left fun r hr => ?_)
  have hrs : r ≠ s := Nat.ne_of_lt (hg.outer_lt r hr)
  simpa [hrs] using h.view_eq r (Nat.lt_trans (hg.outer_lt r hr) hg.own_lt)

theorem advances_addChild (hown : ∀ e ∈ own.entries, e.2.objects = []) :
    Advances Γ₁ (Γ₁.addChild s own) :=
  advances_of_adds (kept_addChild.adds _) hg.refers_lt hg.not_refers_size fun _ ha =>
    Or.inl (refers_of_own_eq (fun r => own_addChild Γ₁ r s own) hown ha)

theorem open_addChild (hown : ∀ e ∈ own.entries, e.2.objects = []) :
    Open (Γ₁.addChild s own) Γ₁.size where
  toPlaced := placed_addChild hg.toPlaced
  refers_lt _ := (advances_addChild hg hown).refers_lt hg.refers_lt
  not_refers ha :=
    hg.not_refers_size (refers_of_own_eq (fun r => own_addChild Γ₁ r s own) hown ha)

theorem env_addChild : (Γ₁.addChild s own).env Γ₁.size = own.entries :: Γ₁.env s := by
  have hs : (Γ₁.addChild s own).chain s = Γ₁.chain s := by
    rw [chain, outer_addChild, if_neg (Nat.ne_of_lt hg.own_lt), chain]
  rw [← env_of_kept hg kept_addChild, env, env, hs, chain, outer_addChild, if_pos rfl, List.map_cons,
    own_addChild, if_pos rfl]

end Grown

theorem Accepts.grow {names : List String} {r : ScopeId} (h : Accepts Γ₁ s names)
    (hadds : AddsEntries r added Γ₁ Γ₂) (ha : FindsNew Γ₁ Γ₂) : Accepts Γ₂ s names where
  toGrounded := h.toGrounded.grow hadds ha
  eq_nil hs := h.eq_nil (h.refers_of_findsNew ha hs)

section Opened

variable (ho : Open Γ₁ s)
include ho

theorem Open.grow {r : ScopeId} (h : AddsEntries r added Γ₁ Γ₂) (ha : FindsNew Γ₁ Γ₂) :
    Open Γ₂ s where
  toGrounded := ho.toGrounded.grow h ha
  not_refers hs := ho.not_refers (ho.refers_of_findsNew ha hs)

theorem advances_insert (hn : name ∉ Γ₁.names s) (ht : Γ₁.Knows t) :
    Advances Γ₁ (Γ₁.insert s name t) :=
  advances_of_adds (addsEntries_insert _ hn) ho.refers_lt ho.not_refers fun _ ha =>
    Or.inl ((refers_insert ho.own_lt ha).elim id (ht _))

/-- An object type is bound to a name for the first time when its members are complete. -/
theorem advances_insertSelf {Γ : TypeScopes} (h : Advances Γ Γ₁)
    (hlt : ∀ a, Γ.Refers a → a < Γ.size) (hs : Γ.size ≤ s) (hn : name ∉ Γ₁.names s) :
    Advances Γ (Γ₁.insert s name (.object s)) where
  size_le := by simpa using h.size_le
  settled a ha := by
    rw [own_insert_of_ne name _ (Nat.ne_of_lt (Nat.lt_of_lt_of_le (hlt a ha) hs))]
    exact h.settled a ha
  refers_mono a ha := refers_mono_of_adds (addsEntries_insert _ hn) (h.refers_mono a ha)
  refers_new a ha := by
    rw [size_insert]
    rcases refers_insert ho.own_lt ha with ha | ha
    · exact h.refers_new a ha
    · obtain rfl := List.mem_singleton.1 ha
      exact Or.inr ⟨hs, ho.own_lt⟩

theorem settled_of_insert (hn : name ∉ Γ₁.names s) (h : Settled (Γ₁.insert s name t) Γ) :
    Settled Γ₁ Γ := by
  intro a ha
  have has : a ≠ s := by
    rintro rfl
    exact ho.not_refers ha
  rw [h a (refers_mono_of_adds (addsEntries_insert _ hn) ha), own_insert_of_ne name t has]

end Opened

theorem advances_addRoot (hlt : ∀ a, Γ.Refers a → a < Γ.size) : Advances Γ (Γ.addRoot ∅) :=
  advances_of_adds (kept_addRoot.adds Γ.size) hlt (fun h => Nat.lt_irrefl _ (hlt _ h)) fun _ ha =>
    Or.inl (refers_of_own_eq (fun r => own_addRoot Γ r ∅) (fun _ he => nomatch he) ha)

theorem open_addRoot (hlt : ∀ a, Γ.Refers a → a < Γ.size) : Open (Γ.addRoot ∅) Γ.size where
  toPlaced := placed_addRoot
  refers_lt _ := (advances_addRoot hlt).refers_lt hlt
  not_refers ha := Nat.lt_irrefl _ (hlt _
    (refers_of_own_eq (fun r => own_addRoot Γ r ∅) (fun _ he => nomatch he) ha))

theorem env_addRoot : (Γ.addRoot ∅).env Γ.size = [[]] := by
  simp [env, chain, outer_addRoot, outer_of_size_le, own_addRoot, EmptyCollection.emptyCollection,
    Bindings.empty]

end ObjectLang.Forest
