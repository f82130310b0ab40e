import ObjectLang.Proofs.Scope.Lookup
import ObjectLang.Proofs.Types.Paired

/-!
The scopes of types in two analyses side by side. Both make their scopes in the same order, so the
new ones of one run are paired with the new ones of the other; object types from before may be paired
in any way that makes their members match. More and more scopes are paired as the runs go on: `n` is
always the number of scopes that the first run has got to.
-/

namespace ObjectLang

open Forest Bindings

/-- Which scopes of two runs belong together: some from before, and the new ones in the order in
which they are made. -/
structure Pairing where
  old : ScopeId → ScopeId → Prop
  left : Nat
  right : Nat
  old_lt : ∀ a b : Nat, old a b → a < left ∧ b < right

namespace Pairing

variable {P : Pairing} {hidden : List String} {Γ Γ' Δ Δ' : TypeScopes} {n m a b s t : Nat}
  {own own' : Bindings Ty} {name : String} {v w : Ty}

/-- The scopes have the same number, counted from the start of each run, and the runs have made
them. -/
def new (P : Pairing) (n a b : Nat) : Prop := ∃ k, a = P.left + k ∧ b = P.right + k ∧ a < n

def rel (P : Pairing) (n a b : Nat) : Prop := P.old a b ∨ P.new n a b

/-- Two types are written alike, with object types that are paired by now. -/
abbrev Same (P : Pairing) (n : Nat) : Ty → Ty → Prop := Ty.Paired (P.rel n)

/-- No other scope is ever paired with either of the two. -/
def Alone (P : Pairing) (a b : Nat) : Prop :=
  (∀ n b', P.rel n a b' → b' = b) ∧ ∀ n a', P.rel n a' b → a' = a

/-- Both runs have made as many scopes, paired object types from before have matching members, and
paired new scopes are aligned. -/
structure Linked (P : Pairing) (Γ Δ : TypeScopes) : Prop where
  size_eq : ∃ k, Γ.size = P.left + k ∧ Δ.size = P.right + k
  old_own : ∀ a b : Nat, P.old a b → Matching (P.Same Γ.size) (Γ.own a) (Δ.own b)
  new_own : ∀ a b : Nat, P.new Γ.size a b → Aligned (P.Same Γ.size) (Γ.own a) (Δ.own b)

/-- From `s` and `t`, names that are not hidden look the same in both runs. -/
structure Twins (P : Pairing) (hidden : List String) (s t : ScopeId) (Γ Δ : TypeScopes) : Prop
    extends Linked P Γ Δ where
  left_placed : Placed Γ s
  right_placed : Placed Δ t
  contains_eq : ∀ n, n ∉ hidden → Γ.containsOwn s n = Δ.containsOwn t n
  found : ∀ n, n ∉ hidden → Option.Rel (P.Same Γ.size) (Γ.lookup s n) (Δ.lookup t n)

theorem new_mono (h : P.new n a b) (hnm : n ≤ m) : P.new m a b := by
  obtain ⟨k, ha, hb, hn⟩ := h
  exact ⟨k, ha, hb, Nat.lt_of_lt_of_le hn hnm⟩

theorem rel_mono (h : P.rel n a b) (hnm : n ≤ m) : P.rel m a b :=
  h.imp_right fun h => new_mono h hnm

theorem same_mono (h : P.Same n v w) (hnm : n ≤ m) : P.Same m v w :=
  h.imp fun _ _ hab => rel_mono hab hnm

theorem Linked.corresponds (h : P.Linked Γ Δ) : Ty.Corresponds (P.rel Γ.size) Γ Δ := by
  rintro a b (hab | hab)
  · exact h.old_own a b hab
  · exact (h.new_own a b hab).matching

/-- The next scopes that the two runs make. -/
theorem Linked.new_size (h : P.Linked Γ Δ) (hn : Γ.size < n) : P.new n Γ.size Δ.size := by
  obtain ⟨k, hl, hr⟩ := h.size_eq
  exact ⟨k, hl, hr, hn⟩

theorem alone_of_new (h : P.new n a b) : P.Alone a b := by
  obtain ⟨k, rfl, rfl, -⟩ := h
  constructor
  · rintro m b' (hold | ⟨j, ha, rfl, -⟩)
    · have := (P.old_lt _ _ hold).1
      omega
    · omega
  · rintro m a' (hold | ⟨j, rfl, hb, -⟩)
    · have := (P.old_lt _ _ hold).2
      omega
    · omega

/-- Both runs make a scope, with aligned bindings in it. -/
theorem Linked.add (h : P.Linked Γ Δ) (hown : Aligned (P.Same Γ.size) own own')
    (hleft : Γ'.size = Γ.size + 1) (hright : Δ'.size = Δ.size + 1)
    (hownl : ∀ r : Nat, Γ'.own r = if r = Γ.size then own else Γ.own r)
    (hownr : ∀ r : Nat, Δ'.own r = if r = Δ.size then own' else Δ.own r) : P.Linked Γ' Δ' where
  size_eq := by
    obtain ⟨k, hl, hr⟩ := h.size_eq
    exact ⟨k + 1, by omega, by omega⟩
  old_own a b hab := by
    obtain ⟨k, hl, hr⟩ := h.size_eq
    have ⟨ha, hb⟩ := P.old_lt a b hab
    rw [hownl, hownr, if_neg (by omega), if_neg (by omega)]
    exact (h.old_own a b hab).mono fun _ _ h => same_mono h (by omega)
  new_own a b hab := by
    obtain ⟨k, hl, hr⟩ := h.size_eq
    obtain ⟨j, rfl, rfl, hj⟩ := hab
    rw [hownl, hownr]
    by_cases hk : j = k
    · rw [if_pos (by omega), if_pos (by omega)]
      exact hown.mono fun _ _ h => same_mono h (by omega)
    · rw [if_neg (by omega), if_neg (by omega)]
      exact (h.new_own _ _ ⟨j, rfl, rfl, by omega⟩).mono fun _ _ h => same_mono h (by omega)

theorem Twins.addChild (h : P.Twins hidden s t Γ Δ) (hown : Aligned (P.Same Γ.size) own own') :
    P.Twins hidden Γ.size Δ.size (Γ.addChild s own) (Δ.addChild t own') where
  toLinked := h.toLinked.add hown (size_addChild ..) (size_addChild ..)
    (fun r => own_addChild Γ r s own) fun r => own_addChild Δ r t own'
  left_placed := placed_addChild h.left_placed
  right_placed := placed_addChild h.right_placed
  contains_eq n _ := by
    rw [containsOwn, containsOwn, own_addChild, own_addChild, if_pos rfl, if_pos rfl,
      hown.matching.contains_eq]
  found n hn := by
    rw [lookup_addChild h.left_placed, lookup_addChild h.right_placed, size_addChild]
    refine optionRel_mono ?_ fun _ _ h => same_mono h (Nat.le_succ Γ.size)
    have hrel := hown.matching n
    generalize own.find? n = o, own'.find? n = o' at hrel
    cases hrel with
    | none => exact h.found n hn
    | some hv => exact .some hv

theorem Linked.addRoot (h : P.Linked Γ Δ) (hidden : List String) :
    P.Twins hidden Γ.size Δ.size (Γ.addRoot ∅) (Δ.addRoot ∅) where
  toLinked := h.add aligned_empty (size_addRoot ..) (size_addRoot ..)
    (fun r => own_addRoot Γ r ∅) fun r => own_addRoot Δ r ∅
  left_placed := placed_addRoot
  right_placed := placed_addRoot
  contains_eq n _ := by
    rw [containsOwn, containsOwn, own_addRoot, own_addRoot, if_pos rfl, if_pos rfl]
  found n _ := by
    rw [lookup_addRoot, lookup_addRoot]
    exact .none

/-- Both runs bind a name of the scopes that they are in, to paired types. -/
theorem Linked.insert (h : P.Linked Γ Δ) (halone : P.Alone s t) (hs : s < Γ.size) (ht : t < Δ.size)
    (name : String) (hvw : P.Same Γ.size v w) :
    P.Linked (Γ.insert s name v) (Δ.insert t name w) where
  size_eq := by simpa using h.size_eq
  old_own a b hab := by
    rw [size_insert]
    by_cases ha : a = s
    · obtain rfl := halone.1 0 b (ha ▸ Or.inl hab)
      rw [ha, own_insert _ _ _ hs, own_insert _ _ _ ht, if_pos rfl, if_pos rfl, ← ha]
      exact (h.old_own a b hab).insert hvw
    · have hb : b ≠ t := fun hb => ha (halone.2 0 a (hb ▸ Or.inl hab))
      rw [own_insert_of_ne name v ha, own_insert_of_ne name w hb]
      exact h.old_own a b hab
  new_own a b hab := by
    rw [size_insert] at hab ⊢
    by_cases ha : a = s
    · obtain rfl := halone.1 _ b (ha ▸ Or.inr hab)
      rw [ha, own_insert _ _ _ hs, own_insert _ _ _ ht, if_pos rfl, if_pos rfl, ← ha]
      exact (h.new_own a b hab).insert name hvw
    · have hb : b ≠ t := fun hb => ha (halone.2 _ a (hb ▸ Or.inr hab))
      rw [own_insert_of_ne name v ha, own_insert_of_ne name w hb]
      exact h.new_own a b hab

theorem Twins.insert (h : P.Twins hidden s t Γ Δ) (halone : P.Alone s t) (name : String)
    (hvw : P.Same Γ.size v w) :
    P.Twins hidden s t (Γ.insert s name v) (Δ.insert t name w) where
  toLinked := h.toLinked.insert halone h.left_placed.own_lt h.right_placed.own_lt name hvw
  left_placed := ⟨by simpa using h.left_placed.own_lt, by
    simpa [outer_insert] using h.left_placed.outer_lt⟩
  right_placed := ⟨by simpa using h.right_placed.own_lt, by
    simpa [outer_insert] using h.right_placed.outer_lt⟩
  contains_eq n hn := by
    rw [containsOwn_insert h.left_placed.own_lt, containsOwn_insert h.right_placed.own_lt,
      h.contains_eq n hn]
  found n hn := by
    rw [lookup_insert h.left_placed, lookup_insert h.right_placed, size_insert]
    split
    · exact .some hvw
    · exact h.found n hn

/-- What is done in new scopes is not seen from `s` and `t`. -/
theorem Twins.of_kept (h : P.Twins hidden s t Γ Δ) (hl : BindingsKept Γ Γ')
    (hr : BindingsKept Δ Δ') (hlinked : P.Linked Γ' Δ') : P.Twins hidden s t Γ' Δ' where
  toLinked := hlinked
  left_placed := h.left_placed.grow (hl.adds s)
  right_placed := h.right_placed.grow (hr.adds t)
  contains_eq n hn := by
    rw [containsOwn_of_kept h.left_placed hl, containsOwn_of_kept h.right_placed hr,
      h.contains_eq n hn]
  found n hn := by
    rw [lookup_of_kept h.left_placed hl, lookup_of_kept h.right_placed hr]
    exact optionRel_mono (h.found n hn) fun _ _ h => same_mono h hl.size_le

/-- From a scope that hides nothing, the bindings of the scope itself match. -/
theorem Twins.own_matching (h : P.Twins [] s t Γ Δ) :
    Matching (P.Same Γ.size) (Γ.own s) (Δ.own t) := by
  refine matching_of_names (fun n => ?_) fun n v w hv hw => ?_
  · rw [← Bindings.contains_iff, ← Bindings.contains_iff]
    exact Bool.eq_iff_iff.1 (h.contains_eq n List.not_mem_nil)
  · have hfound := h.found n List.not_mem_nil
    rw [lookup_eq, lookup_eq, lookupOwn, hv, lookupOwn, hw] at hfound
    cases hfound with
    | some hvw => exact hvw

section Start

/-! Two runs that start where object types of one are paired with object types of the other. -/

variable {R : ScopeId → ScopeId → Prop} (hlt : ∀ a b : Nat, R a b → a < Γ.size ∧ b < Δ.size)

theorem linked_start (h : Ty.Corresponds R Γ Δ) :
    (Pairing.mk R Γ.size Δ.size hlt).Linked Γ Δ where
  size_eq := ⟨0, rfl, rfl⟩
  old_own a b hab := (h a b hab).mono fun _ _ h => h.imp fun _ _ => Or.inl
  new_own a b hab := by
    obtain ⟨k, rfl, -, hk⟩ := hab
    exact absurd hk (Nat.not_lt.2 (Nat.le_add_right _ _))

theorem twins_start (h : Ty.Corresponds R Γ Δ) (hs : Placed Γ s) (ht : Placed Δ t)
    (hcontains : ∀ n, n ∉ hidden → Γ.containsOwn s n = Δ.containsOwn t n)
    (hfound : ∀ n, n ∉ hidden → Option.Rel (Ty.Paired R) (Γ.lookup s n) (Δ.lookup t n)) :
    (Pairing.mk R Γ.size Δ.size hlt).Twins hidden s t Γ Δ where
  toLinked := linked_start hlt h
  left_placed := hs
  right_placed := ht
  contains_eq := hcontains
  found n hn := optionRel_mono (hfound n hn) fun _ _ h => h.imp fun _ _ => Or.inl

theorem alone_start (hs : s < Γ.size) (ht : t < Δ.size) (hleft : ∀ b, ¬ R s b)
    (hright : ∀ a, ¬ R a t) : (Pairing.mk R Γ.size Δ.size hlt).Alone s t := by
  constructor
  · rintro n b (h | ⟨k, rfl, -, -⟩)
    · exact absurd h (hleft b)
    · exact absurd hs (Nat.not_lt.2 (Nat.le_add_right _ _))
  · rintro n a (h | ⟨k, -, rfl, -⟩)
    · exact absurd h (hright a)
    · exact absurd ht (Nat.not_lt.2 (Nat.le_add_right _ _))

end Start

end Pairing

end ObjectLang
