import ObjectLang.Proofs.Scope.Visibility

/-!
What can be seen of a run, one thing after another: the scopes that it gets to, and the objects that
it completes. A run adds names to its own scope and to new ones only, and an object's members are in a
scope that no run goes on in once the object is complete. So whatever comes next leaves the object the
members that it was made with.
-/

namespace ObjectLang

/-- The scopes that a run has got to, or an object that it has completed, with the names that the
literal declares. -/
inductive Sight (α : Type) where
  | scopes (f : Forest α)
  | object (members : ScopeId) (declared : List String)

namespace Forest

variable {α : Type}

/-- A scope is there and has exactly these names. -/
structure Shaped (f : Forest α) (a : ScopeId) (names : List String) : Prop where
  lt : a < f.size
  names_eq : f.names a = names

/-- A run from `f` in the scope `s` comes to `g`. On the way it adds names to `s` and to new scopes
only, and the objects that it completes have the declared members and `more` from then on. -/
inductive Enduring (more : List String) (s : ScopeId) (f : Forest α) :
    List (Sight α) → Forest α → Prop where
  | nil {g added} : AddsNames s added f g → Enduring more s f [] g
  | scopes {g h added ks} : AddsNames s added f g → Enduring more s f ks h →
      Enduring more s f (.scopes g :: ks) h
  | object {a declared ks h} : f.size ≤ a →
      (∀ g, .scopes g ∈ ks ∨ g = h → g.Shaped a (declared ++ more)) → Enduring more s f ks h →
      Enduring more s f (.object a declared :: ks) h

variable {f g g' : Forest α} {s t a : ScopeId} {more added declared : List String}
  {ks ks' before later : List (Sight α)}

theorem enduring_refl (f : Forest α) : Enduring more s f [] f := .nil ((Kept.refl _ f).adds s)

/-- A single step, at the end of which the scopes are seen. -/
theorem enduring_step (h : AddsNames s added f g) : Enduring more s f [.scopes g] g := .scopes h (.nil h)

namespace Enduring

theorem adds (h : Enduring more s f ks g) : ∃ added, AddsNames s added f g := by
  induction h with
  | nil hadds => exact ⟨_, hadds⟩
  | scopes _ _ ih | object _ _ _ ih => exact ih

theorem adds_of_seen (h : Enduring more s f ks g') (hg : .scopes g ∈ ks ∨ g = g') :
    ∃ added, AddsNames s added f g := by
  induction h with
  | nil hadds =>
    obtain hg | rfl := hg
    · cases hg
    · exact ⟨_, hadds⟩
  | scopes hadds _ ih =>
    rw [List.mem_cons] at hg
    obtain (hg | hg) | hg := hg
    · cases hg
      exact ⟨_, hadds⟩
    · exact ih (Or.inl hg)
    · exact ih (Or.inr hg)
  | object _ _ _ ih => exact ih (hg.imp_left fun hg => by simpa using hg)

/-- What a run from `g` adds was not there in `f` either. -/
theorem after (h : AddsNames s added f g) (hg : Enduring more s g ks g') :
    Enduring more s f ks g' := by
  induction hg with
  | nil hadds => exact .nil (h.trans hadds)
  | scopes hadds _ ih => exact .scopes (h.trans hadds) ih
  | object ha hshaped _ ih => exact .object (Nat.le_trans h.size_le ha) hshaped ih

/-- What happens in a new scope is not seen in the old ones. -/
theorem inside (h : NamesKept f g) (ht : f.size ≤ t) (hg : Enduring more t g ks g') :
    Enduring more s f ks g' := by
  induction hg with
  | nil hadds => exact .nil ((h.trans_adds_new ht hadds).adds s)
  | scopes hadds _ ih => exact .scopes ((h.trans_adds_new ht hadds).adds s) ih
  | object ha hshaped _ ih => exact .object (Nat.le_trans h.size_le ha) hshaped ih

/-- One run after another. The second one does not go on in the members of an object of the first. -/
theorem append (hs : s < f.size) (h : Enduring more s f ks g) (h' : Enduring more s g ks' g') :
    Enduring more s f (ks ++ ks') g' := by
  induction h with
  | nil hadds => exact h'.after hadds
  | scopes hadds _ ih => exact .scopes hadds (ih h')
  | @object a declared ks g ha hshaped _ ih =>
    refine .object ha (fun u hu => ?_) (ih h')
    obtain hu | hu := or_assoc.1 (hu.imp_left List.mem_append.1)
    · exact hshaped u (Or.inl hu)
    · obtain ⟨hlt, hnames⟩ := hshaped g (Or.inr rfl)
      obtain ⟨_, hadds⟩ := h'.adds_of_seen hu
      have has : a ≠ s := Nat.ne_of_gt (Nat.lt_of_lt_of_le hs ha)
      refine ⟨Nat.lt_of_lt_of_le hlt hadds.size_le, ?_⟩
      rw [← hnames]
      simpa [Forest.names, has] using hadds.view_eq a hlt

/-- A run may complete an object of its own at the end. -/
theorem complete (h : Enduring more s f ks g) (ha : f.size ≤ a) (hshaped : g.Shaped a (declared ++ more)) :
    Enduring more s f (ks ++ [.object a declared]) g := by
  induction h with
  | nil hadds =>
    refine .object ha (fun u hu => ?_) (.nil hadds)
    obtain hu | rfl := hu
    · cases hu
    · exact hshaped
  | scopes hadds _ ih => exact .scopes hadds (ih hshaped)
  | object hb hbshaped _ ih =>
    exact .object hb (fun u hu => hbshaped u (hu.imp_left fun hu => by simpa using hu)) (ih hshaped)

end Enduring

end Forest

end ObjectLang
