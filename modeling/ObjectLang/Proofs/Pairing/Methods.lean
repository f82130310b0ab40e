import Mathlib.Data.List.Perm.Basic
import ObjectLang.Proofs.Pairing.Equal

/-!
The order of methods does not matter to analysis. All signatures and the object's name for itself
are declared before any body is looked at, so each body meets the same names whatever the order, and
goes in tandem with itself. Only the objects made on the way have other numbers.
-/

namespace ObjectLang

open Forest Bindings Typed

section Joined

variable {R : ScopeId → ScopeId → Prop} {Γ Γ' Δ Δ' : TypeScopes} {v w : Ty} {a b : Nat}

/-- Object types that `R` pairs are there, and their members match. -/
structure Joined (R : ScopeId → ScopeId → Prop) (Γ Δ : TypeScopes) : Prop where
  exist : ∀ a b : Nat, R a b → a < Γ.size ∧ b < Δ.size
  corresponds : Ty.Corresponds R Γ Δ

/-- Two types of two forests stand for the same type. -/
def Ty.Akin (Γ Δ : TypeScopes) (v w : Ty) : Prop := ∃ R, Joined R Γ Δ ∧ Ty.Paired R v w

theorem Joined.grow (h : Joined R Γ Δ) (hl : BindingsKept Γ Γ') (hr : BindingsKept Δ Δ') :
    Joined R Γ' Δ' where
  exist a b hab :=
    ⟨Nat.lt_of_lt_of_le (h.exist a b hab).1 hl.size_le,
      Nat.lt_of_lt_of_le (h.exist a b hab).2 hr.size_le⟩
  corresponds a b hab := by
    rw [hl.own_eq (h.exist a b hab).1, hr.own_eq (h.exist a b hab).2]
    exact h.corresponds a b hab

theorem Ty.Akin.grow (h : Ty.Akin Γ Δ v w) (hl : BindingsKept Γ Γ') (hr : BindingsKept Δ Δ') :
    Ty.Akin Γ' Δ' v w :=
  let ⟨R, hR, hvw⟩ := h
  ⟨R, hR.grow hl hr, hvw⟩

/-- In a forest that has both, types that stand for the same are equal. -/
theorem Ty.Akin.equiv (h : Ty.Akin Γ Δ v w) (hkept : BindingsKept Γ Δ) : v.equiv Δ w = true := by
  obtain ⟨R, hR, hvw⟩ := h
  exact Ty.equiv_of_corresponds (hR.grow hkept (Kept.refl _ _)).corresponds hvw

theorem Pairing.Linked.joined {P : Pairing} (h : P.Linked Γ Δ) : Joined (P.rel Γ.size) Γ Δ where
  exist a b hab := by
    obtain ⟨k, hl, hr⟩ := h.size_eq
    rcases hab with hab | ⟨i, rfl, rfl, hi⟩
    · have hlt := P.old_lt a b hab
      omega
    · omega
  corresponds := h.corresponds

end Joined

namespace Bindings

variable {α : Type} {R : α → α → Prop} {b b' c c' : Bindings α} {es ds : List (String × α)}

/-- Names that come last on both sides may come in another order. -/
theorem Matching.append_perm (h : Matching R b c) (hb : b'.entries = b.entries ++ es)
    (hc : c'.entries = c.entries ++ ds) (hperm : es.Perm ds) (hes : ∀ e ∈ es, R e.2 e.2) :
    Matching R b' c' := by
  refine matching_of_names (fun n => ?_) fun n v w hv hw => ?_
  · have hnames : n ∈ b.entries.map Prod.fst ↔ n ∈ c.entries.map Prod.fst := h.mem_names
    rw [names, names, hb, hc, List.map_append, List.map_append, List.mem_append, List.mem_append,
      hnames, (hperm.map Prod.fst).mem_iff]
  · rw [find?_eq_some_iff, hc, List.mem_append] at hw
    have hleft {u : α} (hu : (n, u) ∈ b.entries ++ es) : v = u := by
      rw [← hb, ← find?_eq_some_iff, hv] at hu
      exact Option.some.inj hu
    rcases hw with hw | hw
    · obtain ⟨u, hu, huw⟩ := h.exists_left (find?_eq_some_iff.2 hw)
      rwa [hleft (List.mem_append_left _ (find?_eq_some_iff.1 hu))]
    · have hw := hperm.mem_iff.2 hw
      rw [hleft (List.mem_append_right _ hw)]
      exact hes _ hw

end Bindings

/-- A method at the stages of its analysis: as written, what it declares, and with types. -/
structure MethodStages where
  decl : DefDecl
  sig : Signature
  result : Typed.DefDecl Ty

/-- The body of the method was analysed when `Γ` was there, and `Ω` came of it. -/
def MethodStages.Ran (a : ScopeId) (Γ Ω : TypeScopes) (m : MethodStages) : Prop :=
  ∃ σ σ', Analysis.analyzeDef a m.decl m.sig σ = .ok m.result σ' ∧ BindingsKept Γ σ.scopes ∧
    BindingsKept σ'.scopes Ω

/-- The member that the method is. -/
def MethodStages.member (m : MethodStages) : String × Ty := (m.decl.name, m.sig.toTy)

namespace Analysis

variable {R : ScopeId → ScopeId → Prop} {Γ Γ' Δ Δ' Ω : TypeScopes} {a b : Nat}
  {σ σ₁ σ₂ τ τ₁ : State} {ms ms' : List MethodStages} {ds : List DefDecl} {sigs : List Signature}

/-- Two object types whose members are all declared, and match. -/
structure Declared (R : ScopeId → ScopeId → Prop) (a b : Nat) (Γ Δ : TypeScopes) : Prop
    extends Joined R Γ Δ where
  paired : R a b
  left_outer : Γ.outer a = []
  right_outer : Δ.outer b = []

theorem Declared.grow (h : Declared R a b Γ Δ) (hl : BindingsKept Γ Γ') (hr : BindingsKept Δ Δ') :
    Declared R a b Γ' Δ' where
  toJoined := h.toJoined.grow hl hr
  paired := h.paired
  left_outer := by rw [hl.outer_eq a (h.exist a b h.paired).1, h.left_outer]
  right_outer := by rw [hr.outer_eq b (h.exist a b h.paired).2, h.right_outer]

/-- The members are all that can be seen from where methods are looked at, and so the methods see
the same on either side. -/
theorem Declared.twins (h : Declared R a b Γ Δ) :
    (Pairing.mk R Γ.size Δ.size h.exist).Twins [] a b Γ Δ := by
  have hmatching := h.corresponds a b h.paired
  refine Pairing.twins_start h.exist h.corresponds
    ⟨(h.exist a b h.paired).1, by simp [h.left_outer]⟩
    ⟨(h.exist a b h.paired).2, by simp [h.right_outer]⟩ (fun n _ => hmatching.contains_eq)
    fun n _ => ?_
  have hfound := found_of_matching (.cons hmatching .nil) n
  rwa [Forest.lookup, Forest.lookup, chain, chain, h.left_outer, h.right_outer]

theorem kept_methods {ts : List (Typed.DefDecl Ty)} (h : analyzeMethods a ds sigs σ = .ok ts σ₁) :
    BindingsKept σ.scopes σ₁.scopes :=
  (keeps_analyzeMethods a ds sigs).of_ok h

theorem exists_stages {ts : List (Typed.DefDecl Ty)}
    (hsigs : List.Forall₂ (fun d sig => signature d = .ok sig) ds sigs)
    (h : analyzeMethods a ds sigs σ = .ok ts σ₁) :
    ∃ ms : List MethodStages, ds = ms.map (·.decl) ∧ sigs = ms.map (·.sig) ∧
      ts = ms.map (·.result) ∧
      ∀ m ∈ ms, signature m.decl = .ok m.sig ∧ m.Ran a σ.scopes σ₁.scopes := by
  induction hsigs generalizing σ ts with
  | nil =>
    obtain ⟨rfl, rfl⟩ := pure_eq_ok.1 h
    exact ⟨[], rfl, rfl, rfl, fun _ hm => absurd hm List.not_mem_nil⟩
  | @cons d sig ds sigs hsig _ ih =>
    obtain ⟨t, ts, σ', ht, hts, rfl⟩ := methods_inv h
    obtain ⟨ms, rfl, rfl, rfl, hms⟩ := ih hts
    refine ⟨⟨d, sig, t⟩ :: ms, rfl, rfl, rfl, List.forall_mem_cons.2 ⟨⟨hsig, ?_⟩, fun m hm => ?_⟩⟩
    · exact ⟨σ, σ', ht, Kept.refl _ _, kept_methods hts⟩
    · obtain ⟨hsig, σ₂, σ₃, hrun, hl, hr⟩ := hms m hm
      exact ⟨hsig, σ₂, σ₃, hrun, (kept_def ht).trans hl, hr⟩

/-- Methods are declared when their signatures are fine and their names are new. -/
theorem declareMethods_of_fresh
    (hsigs : List.Forall₂ (fun d sig => signature d = .ok sig) ds sigs) (ha : a < σ.scopes.size)
    (hnodup : (ds.map DefDecl.name).Nodup)
    (hfresh : ∀ d ∈ ds, σ.scopes.containsOwn a d.name = false) :
    ∃ σ₁, declareMethods a ds σ = .ok sigs σ₁ := by
  induction hsigs generalizing σ with
  | nil => exact ⟨σ, rfl⟩
  | @cons d sig ds sigs hsig _ ih =>
    obtain ⟨hd, hfresh⟩ := List.forall_mem_cons.1 hfresh
    obtain ⟨hnew, hnodup⟩ := List.nodup_cons.1 hnodup
    have hrest (e : DefDecl) (he : e ∈ ds) :
        (σ.scopes.insert a d.name sig.toTy).containsOwn a e.name = false := by
      have hne : d.name ≠ e.name := fun h => hnew (h ▸ List.mem_map_of_mem he)
      simp [containsOwn_insert ha, hfresh e he, hne]
    obtain ⟨σ₁, h⟩ := ih (σ := ⟨σ.scopes.insert a d.name sig.toTy, σ.trace⟩) (by simpa) hnodup hrest
    exact ⟨σ₁, declareMethods_cons_eq_ok.2 ⟨sig, sigs, hd, hsig, h, rfl⟩⟩

theorem declareMethods_adds
    (h : declareMethods a (ms.map (·.decl)) σ = .ok (ms.map (·.sig)) σ₁) :
    AddsEntries a (ms.map (·.member)) σ.scopes σ₁.scopes := by
  have hadds := (declareMethods_ok h).2
  rwa [List.zipWith_map, List.zipWith_self] at hadds

/-- Methods that are declared have names of their own, and new ones. -/
theorem declareMethods_new (ha : a < σ.scopes.size)
    (h : declareMethods a (ms.map (·.decl)) σ = .ok (ms.map (·.sig)) σ₁) :
    (ms.map (·.decl.name)).Nodup ∧ ∀ m ∈ ms, σ.scopes.containsOwn a m.decl.name = false := by
  have hadds := (declareMethods_adds h).view_eq a ha
  have hnodup := (σ₁.scopes.own a).names_nodup
  rw [hadds, if_pos rfl, List.map_append, List.map_map, List.nodup_append] at hnodup
  obtain ⟨-, hnodup, hapart⟩ := hnodup
  refine ⟨hnodup, fun m hm => Bool.eq_false_iff.2 fun hold => ?_⟩
  exact hapart _ (containsOwn_iff.1 hold) _ (List.mem_map_of_mem hm) rfl

/-- Two objects with matching fields declare the same methods, in whatever order. -/
theorem declareMethods_perm {P : Pairing} {n : Nat} (ha : a < σ.scopes.size)
    (hb : b < τ.scopes.size) (hfields : Matching (P.Same n) (σ.scopes.own a) (τ.scopes.own b))
    (hperm : ms.Perm ms') (hsigs : ∀ m ∈ ms, signature m.decl = .ok m.sig)
    (h : declareMethods a (ms.map (·.decl)) σ = .ok (ms.map (·.sig)) σ₁) :
    ∃ τ₁, declareMethods b (ms'.map (·.decl)) τ = .ok (ms'.map (·.sig)) τ₁ ∧
      Matching (P.Same n) (σ₁.scopes.own a) (τ₁.scopes.own b) := by
  obtain ⟨hnodup, hnew⟩ := declareMethods_new ha h
  have hsigs' : List.Forall₂ (fun d sig => signature d = .ok sig) (ms'.map (·.decl))
      (ms'.map (·.sig)) := by
    rw [List.forall₂_map_left_iff, List.forall₂_map_right_iff, List.forall₂_same]
    exact fun m hm => hsigs m (hperm.mem_iff.2 hm)
  have hnodup' : ((ms'.map (·.decl)).map DefDecl.name).Nodup := by
    rw [List.map_map]
    exact (hperm.map _).nodup_iff.1 hnodup
  have hnew' : ∀ d ∈ ms'.map (·.decl), τ.scopes.containsOwn b d.name = false := by
    refine List.forall_mem_map.2 fun m hm => ?_
    rw [containsOwn, ← hfields.contains_eq]
    exact hnew m (hperm.mem_iff.2 hm)
  obtain ⟨τ₁, hτ⟩ := declareMethods_of_fresh hsigs' hb hnodup' hnew'
  have hleft := (declareMethods_adds h).view_eq a ha
  have hright := (declareMethods_adds hτ).view_eq b hb
  rw [if_pos rfl] at hleft hright
  refine ⟨τ₁, hτ, hfields.append_perm hleft hright (hperm.map _) fun e he => ?_⟩
  obtain ⟨m, -, rfl⟩ := List.mem_map.1 he
  exact same_toTy P n m.sig

/-- When the objects have got their names for themselves, all members match. -/
theorem declared_insert {P : Pairing} {es ds : List (String × Ty)}
    (hab : P.new σ.scopes.size a b)
    (hst : P.Twins [] a b σ.scopes τ.scopes) (hl : AddsEntries a es σ.scopes σ₁.scopes)
    (hr : AddsEntries b ds τ.scopes τ₁.scopes) (ha : σ.scopes.outer a = [])
    (hb : τ.scopes.outer b = [])
    (hown : Matching (P.Same σ.scopes.size) (σ₁.scopes.own a) (τ₁.scopes.own b)) :
    Declared (P.rel σ.scopes.size) a b (σ₁.scopes.insert a selfName (.object a))
      (τ₁.scopes.insert b selfName (.object b)) where
  exist i j hij := by
    have hlt := hst.toLinked.joined.exist i j hij
    simpa using ⟨Nat.lt_of_lt_of_le hlt.1 hl.size_le, Nat.lt_of_lt_of_le hlt.2 hr.size_le⟩
  corresponds i j hij := by
    have hlt := hst.toLinked.joined.exist i j hij
    have halone := Pairing.alone_of_new hab
    by_cases hi : i = a
    · obtain rfl := halone.1 _ j (hi ▸ hij)
      subst hi
      rw [own_insert _ _ _ (Nat.lt_of_lt_of_le hlt.1 hl.size_le), if_pos rfl,
        own_insert _ _ _ (Nat.lt_of_lt_of_le hlt.2 hr.size_le), if_pos rfl]
      exact hown.insert (.object hij)
    · have hj : j ≠ b := fun hj => hi (halone.2 _ i (hj ▸ hij))
      rw [own_insert_of_ne _ _ hi, own_insert_of_ne _ _ hj, own_of_adds hl hlt.1 hi,
        own_of_adds hr hlt.2 hj]
      exact hst.corresponds i j hij
  paired := Or.inr hab
  left_outer := by rw [outer_insert, hl.outer_eq a hst.left_placed.own_lt, ha]
  right_outer := by rw [outer_insert, hr.outer_eq b hst.right_placed.own_lt, hb]

/-- Where matching members are declared, bodies that were accepted on one side are accepted on the
other, in whatever order they come. -/
theorem analyzeMethods_of_ran (hR : Declared R a b Γ Δ) (hms : ∀ m ∈ ms, m.Ran a Γ Ω)
    (hkept : BindingsKept Δ τ.scopes) :
    ∃ ts τ₁, analyzeMethods b (ms.map (·.decl)) (ms.map (·.sig)) τ = .ok ts τ₁ ∧
      MethodsAlike (Ty.Akin Ω τ₁.scopes) (ms.map (·.result)) ts := by
  induction ms generalizing τ with
  | nil => exact ⟨[], τ, rfl, .nil⟩
  | cons m ms ih =>
    obtain ⟨⟨σ, σ', hleft, hl, hr⟩, hms⟩ := List.forall_mem_cons.1 hms
    -- Other bodies came before on either side, so what they made is not paired any more.
    have hagree := tandem_analyzeDef _ a b 0 m.decl m.sig m.decl.avoids_nil σ τ (Nat.zero_le _)
      (hR.grow hl hkept).twins
    rw [hleft] at hagree
    generalize hright : analyzeDef b m.decl m.sig τ = r at hagree
    cases hagree with
    | @ok _ t _ τ' _ halike hst =>
      obtain ⟨ts, τ₁, hrest, hts⟩ := ih hms (hkept.trans (kept_def hright))
      refine ⟨t :: ts, τ₁, ?_, .cons (halike.mono fun v w hvw => ?_) hts⟩
      · simp only [List.map_cons, analyzeMethods, bind_eq_ok, pure_eq_ok]
        exact ⟨t, τ', hright, ts, τ₁, hrest, rfl, rfl⟩
      · exact Ty.Akin.grow ⟨_, hst.toLinked.joined, hvw⟩ hr (kept_methods hrest)

/-- Fields are looked at in a scope that sees nothing outside. -/
theorem outer_of_fields {fields : List LetDecl} {tfields : List (Typed.LetDecl Ty)}
    (hσ : σ.scopes = Γ.addRoot ∅) (h : analyzeFields Γ.size fields σ = .ok tfields σ₁) :
    Γ.size < σ₁.scopes.size ∧ σ₁.scopes.outer Γ.size = [] := by
  obtain ⟨_, hadds⟩ := (keeps_analyzeFields Γ.size fields).of_ok h
  have hlt : Γ.size < σ.scopes.size := by simp [hσ]
  refine ⟨Nat.lt_of_lt_of_le hlt hadds.size_le, ?_⟩
  rw [hadds.outer_eq Γ.size hlt, hσ, outer_addRoot, outer_of_size_le (Nat.le_refl _)]

/-- Two runs in which nothing is paired before they start. -/
def unpaired (n m : Nat) : Pairing := ⟨fun _ _ => False, n, m, fun _ _ h => h.elim⟩

/-- Fields that are accepted in a new object are accepted in every other one. -/
theorem analyzeFields_anywhere {fields : List LetDecl} {tfields : List (Typed.LetDecl Ty)}
    (hσ : σ.scopes = Γ.addRoot ∅) (hτ : τ.scopes = Δ.addRoot ∅)
    (h : analyzeFields Γ.size fields σ = .ok tfields σ₁) :
    ∃ tfields' τ₁, analyzeFields Δ.size fields τ = .ok tfields' τ₁ ∧
      (unpaired Γ.size Δ.size).new σ₁.scopes.size Γ.size Δ.size ∧
      FieldsAlike ((unpaired Γ.size Δ.size).Same σ₁.scopes.size) tfields tfields' ∧
      (unpaired Γ.size Δ.size).Twins [] Γ.size Δ.size σ₁.scopes τ₁.scopes := by
  have hstart : (unpaired Γ.size Δ.size).Linked Γ Δ :=
    Pairing.linked_start (fun _ _ h => h.elim) fun _ _ h => h.elim
  have hnew := hstart.new_size (Nat.lt_succ_self _)
  have hagree := tandem_analyzeFields _ Γ.size Δ.size 0 (Pairing.alone_of_new hnew) fields
    (fieldsAvoid_nil fields) σ τ (Nat.zero_le _) (by rw [hσ, hτ]; exact hstart.addRoot [])
  rw [h] at hagree
  generalize hright : analyzeFields Δ.size fields τ = r at hagree
  cases hagree with
  | ok _ halike hst =>
    exact ⟨_, _, rfl, Pairing.new_mono hnew (outer_of_fields hσ h).1, halike, hst⟩

/-- An object with its methods in another order is accepted wherever the object is. -/
theorem object_perm {s : ScopeId} {name : Option String} {fields : List LetDecl}
    {methods methods' : List DefDecl} {typed : Typed.Expr Ty} (hperm : methods.Perm methods')
    (h : analyzeExpr s (.object name fields methods) σ = .ok typed σ₁) (τ : State) :
    ∃ (ms ms' : List MethodStages) (tfields tfields' : List (Typed.LetDecl Ty))
      (tmethods' : List (Typed.DefDecl Ty)) (τ₁ : State),
      ms.Perm ms' ∧ methods = ms.map (·.decl) ∧ methods' = ms'.map (·.decl) ∧
      typed = .object name tfields (ms.map (·.result)) (.object σ.scopes.size) ∧
      analyzeExpr s (.object name fields methods') τ =
        .ok (.object name tfields' tmethods' (.object τ.scopes.size)) τ₁ ∧
      FieldsAlike (Ty.Akin σ₁.scopes τ₁.scopes) tfields tfields' ∧
      MethodsAlike (Ty.Akin σ₁.scopes τ₁.scopes) (ms'.map (·.result)) tmethods' ∧
      Ty.Akin σ₁.scopes τ₁.scopes (.object σ.scopes.size) (.object τ.scopes.size) := by
  obtain ⟨hname, tfields, sigs, tmethods, σf, σd, hf, hd, hself, hm, rfl⟩ := object_eq_ok.1 h
  obtain ⟨hsigs, -⟩ := declareMethods_ok hd
  obtain ⟨ms, rfl, rfl, rfl, hms⟩ := exists_stages hsigs hm
  obtain ⟨ms', rfl, hms'⟩ :=
    (congrFun₂ (List.eq_map_comp_perm MethodStages.decl) methods' ms).mpr hperm.symm
  obtain ⟨tfields', τf, hf', hnew, hfields, hst⟩ :=
    analyzeFields_anywhere (Γ := σ.scopes) (Δ := τ.scopes)
      (τ := ⟨τ.scopes.addRoot ∅, τ.trace.push (.analyzingObject name)⟩) rfl rfl hf
  obtain ⟨τd, hd', hown⟩ := declareMethods_perm hst.left_placed.own_lt hst.right_placed.own_lt
    hst.own_matching hms'.symm (fun m hm => (hms m hm).1) hd
  have hself' : τd.scopes.containsOwn τ.scopes.size selfName = false := by
    rw [containsOwn, ← hown.contains_eq]
    exact hself
  have hdeclared := declared_insert hnew hst (declareMethods_adds hd) (declareMethods_adds hd')
    (outer_of_fields rfl hf).2 (outer_of_fields rfl hf').2 hown
  obtain ⟨tmethods', τ₁, hm', hmethods⟩ := analyzeMethods_of_ran
    (τ := ⟨τd.scopes.insert τ.scopes.size selfName (.object τ.scopes.size), τd.trace⟩) hdeclared
    (fun m hm => (hms m (hms'.mem_iff.1 hm)).2) (Kept.refl _ _)
  have hlater := hdeclared.toJoined.grow (kept_methods hm) (kept_methods hm')
  refine ⟨ms, ms', tfields, tfields', tmethods', τ₁, hms'.symm, rfl, rfl, rfl, ?_, ?_, hmethods, ?_⟩
  · exact object_eq_ok.2 ⟨hname, tfields', _, tmethods', τf, τd, hf', hd', hself', hm', rfl⟩
  · exact hfields.mono fun v w hvw => ⟨_, hlater, hvw⟩
  · exact ⟨_, hlater, .object hdeclared.paired⟩

/-- The order of methods does not matter. When an object is accepted, it is accepted with its
methods in any other order, in the same scope; analysed there after the first one, it has an equal
type, the same fields and the same methods in the other order, with equal types at every node. -/
theorem analyzeExpr_permuted {s : ScopeId} {name : Option String} {fields : List LetDecl}
    {methods methods' : List DefDecl} {typed : Typed.Expr Ty} (hperm : methods.Perm methods')
    (h : analyzeExpr s (.object name fields methods) σ = .ok typed σ₁) :
    (∃ typed' τ, analyzeExpr s (.object name fields methods') σ = .ok typed' τ) ∧
      ∃ tfields tmethods owner tfields' permuted tmethods' owner' σ₂,
        typed = .object name tfields tmethods (.object owner) ∧
        analyzeExpr s (.object name fields methods') σ₁ =
          .ok (.object name tfields' tmethods' (.object owner')) σ₂ ∧
        (Ty.object owner).equiv σ₂.scopes (.object owner') = true ∧
        FieldsAlike (fun v w => v.equiv σ₂.scopes w = true) tfields tfields' ∧
        tmethods.length = methods.length ∧ permuted.length = methods'.length ∧
        (methods.zip tmethods).Perm (methods'.zip permuted) ∧
        MethodsAlike (fun v w => v.equiv σ₂.scopes w = true) permuted tmethods' := by
  obtain ⟨_, _, _, _, _, τ, -, -, -, -, haccepted, -⟩ := object_perm hperm h σ
  obtain ⟨ms, ms', tfields, tfields', tmethods', σ₂, hms, rfl, rfl, rfl, hright, hfields, hmethods,
    htype⟩ := object_perm hperm h σ₁
  have hkept := kept_expr hright
  refine ⟨⟨_, τ, haccepted⟩, tfields, ms.map (·.result), σ.scopes.size, tfields',
    ms'.map (·.result), tmethods', σ₁.scopes.size, σ₂, rfl, hright, htype.equiv hkept,
    hfields.mono fun _ _ h => h.equiv hkept, by simp, by simp, ?_,
    hmethods.mono fun _ _ h => h.equiv hkept⟩
  rw [List.zip_map', List.zip_map']
  exact hms.map _

/-- Methods that call each other, one by its name and one through the object, and one that returns
the object. -/
def parityMethods : List DefDecl :=
  [.mk "even" ["n"] [some "Integer"] (some "Boolean")
      [.returnStmt (some (.call "odd" [.binary "-" (.var "n") (.var "step")]))],
    .mk "odd" ["n"] [some "Integer"] (some "Boolean")
      [.returnStmt (some (.methodCall (.var "this") "even"
        [.binary "-" (.var "n") (.var "step")]))],
    .mk "self" [] [] none [.returnStmt (some (.var "this"))]]

/-- The theorem at an object whose methods use later and earlier ones, in the opposite order. -/
theorem analyzeExpr_permuted_parity :
    let fields : List LetDecl := [.mk "step" none (some (.literal (.integer 1)))]
    let start : State := ⟨(∅ : TypeScopes).addRoot ∅, #[]⟩
    parityMethods.Perm parityMethods.reverse ∧
      ∃ typed σ₁ typed' σ₂, analyzeExpr 0 (.object none fields parityMethods) start = .ok typed σ₁ ∧
        analyzeExpr 0 (.object none fields parityMethods.reverse) σ₁ = .ok typed' σ₂ ∧
        typed.type.equiv σ₂.scopes typed'.type = true := by
  intro fields start
  have hperm : parityMethods.Perm parityMethods.reverse := (List.reverse_perm _).symm
  have hruns : ((analyzeExpr 0 (.object none fields parityMethods)).run' start).isSome = true := by
    cbv
  cases h : analyzeExpr 0 (.object none fields parityMethods) start with
  | ok typed σ₁ =>
    obtain ⟨-, tfields, tmethods, owner, tfields', -, tmethods', owner', σ₂, rfl, hright, htype,
      -⟩ := analyzeExpr_permuted hperm h
    exact ⟨hperm, _, σ₁, _, σ₂, rfl, hright, htype⟩
  | error e σ₁ => simp [EStateM.run', EStateM.run, h] at hruns

end Analysis

end ObjectLang
