import ObjectLang.Proofs.Pairing.Analysis
import ObjectLang.Proofs.Scope.Visibility
import ObjectLang.Proofs.Types.Equivalence
import ObjectLang.Proofs.Typing.Failure

/-!
Analysis cannot tell equal types apart. Two scopes with equal types at the same names see equal
object types wherever they look, so these can be paired, and the analyses of a program in the two
scopes go in tandem.
-/

namespace ObjectLang

open Forest Bindings Typed

namespace Forest

variable {Γ Γ' Δ : TypeScopes} {s t : ScopeId} {v w : Ty} {added : List (String × Ty)}

/-- Scope by scope on the way out, two scopes have the same names, with equal types. -/
def LooksLike (Γ : TypeScopes) (s t : ScopeId) : Prop :=
  List.Forall₂ (fun a b => Matching (fun v w => v.equiv Γ w = true) (Γ.own a) (Γ.own b))
    (Γ.chain s) (Γ.chain t)

/-- What is around a scope around `s` is around `s` as well. -/
def Nested (Γ : TypeScopes) (s : ScopeId) : Prop := ∀ r ∈ Γ.outer s, Γ.chain r <:+ Γ.outer s

/-- Neither of two scopes is the other or around it. -/
structure Apart (Γ : TypeScopes) (s t : ScopeId) : Prop where
  left : s ∉ Γ.chain t
  right : t ∉ Γ.chain s

/-- Two object types that are found in the scopes are equal. -/
def EqualObjects (Γ : TypeScopes) (a b : ScopeId) : Prop :=
  Γ.Refers a ∧ Γ.Refers b ∧ (Ty.object a).equiv Γ (.object b) = true

theorem own_of_adds {r : ScopeId} (h : AddsEntries s added Γ Γ') (hr : r < Γ.size) (hrs : r ≠ s) :
    Γ'.own r = Γ.own r :=
  Bindings.ext_entries (by simpa [hrs] using h.view_eq r hr)

/-- If the scope is the members of an object type, nothing is added. -/
theorem Accepts.own_eq {names : List String} {a : ScopeId} (hs : Accepts Γ s names)
    (h : AddsEntries s added Δ Γ') (hnil : names = [] → added = []) (ha : Γ.Refers a)
    (hlt : a < Δ.size) : Γ'.own a = Δ.own a := by
  refine Bindings.ext_entries ?_
  by_cases has : a = s
  · simpa [hnil (hs.eq_nil (has ▸ ha))] using h.view_eq a hlt
  · simpa [has] using h.view_eq a hlt

mutual

theorem paired_of_equiv (v : Ty) {w : Ty} (h : v.equiv Γ w = true) (hv : Γ.Knows v)
    (hw : Γ.Knows w) : Ty.Paired Γ.EqualObjects v w := by
  match v, Ty.matches_of_equiv h with
  | .prim _, .prim p => exact .prim p
  | .fn ps r, .fn hp hr =>
    exact .fn (paired_all ps hp (knows_fn.1 hv).1 (knows_fn.1 hw).1)
      (paired_of_equiv r hr (knows_fn.1 hv).2 (knows_fn.1 hw).2)
  | .object _, .object .. => exact .object ⟨refers_of_knows hv, refers_of_knows hw, h⟩

theorem paired_all (vs : List Ty) {ws : List Ty}
    (h : List.Forall₂ (fun v w => v.equiv Γ w = true) vs ws) (hv : ∀ v ∈ vs, Γ.Knows v)
    (hw : ∀ w ∈ ws, Γ.Knows w) : List.Forall₂ (Ty.Paired Γ.EqualObjects) vs ws := by
  match vs, h with
  | [], .nil => exact .nil
  | v :: vs, .cons h hs =>
    exact .cons (paired_of_equiv v h (hv v (by simp)) (hw _ (by simp)))
      (paired_all vs hs (fun u hu => hv u (by simp [hu])) fun u hu => hw u (by simp [hu]))

end

theorem matching_of_equiv {a b : ScopeId}
    (h : Matching (fun v w => v.equiv Γ w = true) (Γ.own a) (Γ.own b)) :
    Matching (Ty.Paired Γ.EqualObjects) (Γ.own a) (Γ.own b) :=
  matching_of_names (fun _ => h.mem_names) fun _ v _ hv hw =>
    paired_of_equiv v (h.related hv hw) (knows_lookupOwn hv) (knows_lookupOwn hw)

/-- Equal object types have matching members, also when other scopes have got more names. -/
theorem corresponds_equalObjects (h : Settled Γ Δ) : Ty.Corresponds Γ.EqualObjects Γ Δ := by
  rintro a b ⟨-, hb, hab⟩
  rw [h b hb]
  cases Ty.matches_of_equiv hab with
  | object hnames hmembers => exact matching_of_equiv (matching_of_names hnames hmembers)

theorem found_of_matching {R : Ty → Ty → Prop} {as bs : List ScopeId}
    (h : List.Forall₂ (fun a b => Matching R (Γ.own a) (Δ.own b)) as bs) (name : String) :
    Option.Rel R (as.findSome? fun a => Γ.lookupOwn a name)
      (bs.findSome? fun b => Δ.lookupOwn b name) := by
  induction h with
  | nil => exact .none
  | @cons a b as bs hab _ ih =>
    have hab := hab name
    rw [List.findSome?_cons, List.findSome?_cons, lookupOwn, lookupOwn]
    generalize (Γ.own a).find? name = o, (Δ.own b).find? name = o' at hab
    cases hab with
    | none => exact ih
    | some hvw => exact .some hvw

theorem LooksLike.found (h : Γ.LooksLike s t) (name : String) :
    Option.Rel (Ty.Paired Γ.EqualObjects) (Γ.lookup s name) (Γ.lookup t name) :=
  found_of_matching (h.imp fun _ _ => matching_of_equiv) name

theorem matching_all {R S : Ty → Ty → Prop} {as bs : List ScopeId}
    (h : List.Forall₂ (fun a b => Matching R (Γ.own a) (Γ.own b)) as bs)
    (hRS : ∀ a b, Matching R (Γ.own a) (Γ.own b) → Matching S (Γ.own a) (Γ.own b))
    (has : ∀ a ∈ as, Δ.own a = Γ.own a) (hbs : ∀ b ∈ bs, Δ.own b = Γ.own b) :
    List.Forall₂ (fun a b => Matching S (Δ.own a) (Δ.own b)) as bs := by
  induction h with
  | nil => exact .nil
  | cons hab _ ih =>
    obtain ⟨ha, has⟩ := List.forall_mem_cons.1 has
    obtain ⟨hb, hbs⟩ := List.forall_mem_cons.1 hbs
    refine .cons ?_ (ih has hbs)
    rw [ha, hb]
    exact hRS _ _ hab

theorem not_mem_chain (ht : Γ.Nested t) (hst : s ≠ t)
    (h : (Γ.chain s).length = (Γ.chain t).length) : s ∉ Γ.chain t := by
  intro hs
  have hle := (ht s ((List.mem_cons.1 hs).resolve_left hst)).length_le
  rw [h, chain, List.length_cons] at hle
  exact Nat.not_succ_le_self _ hle

/-- Of two scopes with as many scopes around them neither is around the other. -/
theorem LooksLike.apart (h : Γ.LooksLike s t) (hs : Γ.Nested s) (ht : Γ.Nested t) (hst : s ≠ t) :
    Γ.Apart s t where
  left := not_mem_chain ht hst h.length_eq
  right := not_mem_chain hs hst.symm h.length_eq.symm

theorem LooksLike.own (h : Γ.LooksLike s t) :
    Matching (fun v w => v.equiv Γ w = true) (Γ.own s) (Γ.own t) := by
  cases h with
  | cons h _ => exact h

end Forest

namespace Analysis

variable {s t : ScopeId} {σ σ₁ σ₂ : State} {p : Program} {tp tp' : Typed.Program Ty}
  {Γ Δ : TypeScopes} {added : List (String × Ty)} {names : List String}

/-- Before the second of two analyses, when the first has bound names in its own scope. -/
theorem twins_of_looksLike (hs : Accepts Γ s names) (ht : Accepts Γ t names)
    (hlike : Γ.LooksLike s t) (hapart : Γ.Apart s t) (hadds : AddsEntries s added Γ Δ)
    (hnil : names = [] → added = [])
    (hlt : ∀ a b : Nat, Γ.EqualObjects a b → a < Γ.size ∧ b < Δ.size) :
    (Pairing.mk Γ.EqualObjects Γ.size Δ.size hlt).Twins [] s t Γ Δ ∧
      (names ≠ [] → (Pairing.mk Γ.EqualObjects Γ.size Δ.size hlt).Alone s t) := by
  have hown (r : ScopeId) (hr : r ∈ Γ.chain t) : Δ.own r = Γ.own r :=
    own_of_adds hadds (ht.chain_lt hr) fun hrs => hapart.left (hrs ▸ hr)
  have hsettled : Settled Γ Δ := fun a ha => hs.own_eq hadds hnil ha (hs.refers_lt a ha)
  refine ⟨Pairing.twins_start hlt (corresponds_equalObjects hsettled) hs.toPlaced
    (ht.toPlaced.grow hadds) (fun n _ => ?_) (fun n _ => ?_), fun hne => ?_⟩
  · rw [containsOwn, containsOwn, hown t List.mem_cons_self]
    exact hlike.own.contains_eq
  · rw [lookup_congr (hadds.outer_eq t ht.own_lt) hown]
    exact hlike.found n
  · exact Pairing.alone_start hlt hs.own_lt (Nat.lt_of_lt_of_le ht.own_lt hadds.size_le)
      (fun _ h => (hs.isOpen hne).not_refers h.1) fun _ h => (ht.isOpen hne).not_refers h.2.1

/-- After both analyses, what has been paired is equal. -/
theorem corresponds_end (ht : Accepts Γ t names) {Ω : TypeScopes} {added' : List (String × Ty)}
    (hadds : AddsEntries s added Γ Δ) (hadds' : AddsEntries t added' Δ Ω)
    (hnil : names = [] → added' = [])
    (hlt : ∀ a b : Nat, Γ.EqualObjects a b → a < Γ.size ∧ b < Δ.size)
    (h : (Pairing.mk Γ.EqualObjects Γ.size Δ.size hlt).Linked Δ Ω) :
    Ty.Corresponds ((Pairing.mk Γ.EqualObjects Γ.size Δ.size hlt).rel Δ.size) Ω Ω := by
  intro a b hab
  have hown : Ω.own a = Δ.own a := by
    rcases hab with hab | ⟨k, rfl, -, hk⟩
    · exact ht.own_eq hadds' hnil hab.1
        (Nat.lt_of_lt_of_le (ht.refers_lt a hab.1) hadds.size_le)
    · refine own_of_adds hadds' hk (Nat.ne_of_gt ?_)
      exact Nat.lt_of_lt_of_le ht.own_lt (Nat.le_add_right _ _)
  rw [hown]
  exact h.corresponds a b hab

theorem looksLike_end (hs : Accepts Γ s names) (ht : Accepts Γ t names) (hlike : Γ.LooksLike s t)
    (hapart : Γ.Apart s t) {Ω : TypeScopes} {added' : List (String × Ty)}
    (hadds : AddsEntries s added Γ Δ) (hadds' : AddsEntries t added' Δ Ω)
    (hnil : names = [] → added' = [])
    (hlt : ∀ a b : Nat, Γ.EqualObjects a b → a < Γ.size ∧ b < Δ.size)
    (h : (Pairing.mk Γ.EqualObjects Γ.size Δ.size hlt).Twins [] s t Δ Ω) : Ω.LooksLike s t := by
  have hequal {v w : Ty} := Ty.equiv_of_corresponds (t := v) (u := w)
    (corresponds_end ht hadds hadds' hnil hlt h.toLinked)
  have hst : s ≠ t := fun hst => hapart.left (hst ▸ List.mem_cons_self)
  have hkept (r : ScopeId) (hr : r < Γ.size) (hrs : r ≠ s) (hrt : r ≠ t) : Ω.own r = Γ.own r :=
    (own_of_adds hadds' (Nat.lt_of_lt_of_le hr hadds.size_le) hrt).trans (own_of_adds hadds hr hrs)
  have houter (r : ScopeId) (hr : r < Γ.size) : Ω.outer r = Γ.outer r :=
    (hadds'.outer_eq r (Nat.lt_of_lt_of_le hr hadds.size_le)).trans (hadds.outer_eq r hr)
  rw [LooksLike, chain, chain, houter s hs.own_lt, houter t ht.own_lt]
  refine .cons ?_ ?_
  · rw [own_of_adds hadds' (Nat.lt_of_lt_of_le hs.own_lt hadds.size_le) hst]
    exact h.own_matching.mono fun _ _ => hequal
  · refine matching_all (List.forall₂_cons.1 hlike).2 (fun a b hab => ?_) (fun a ha => ?_)
      fun b hb => ?_
    · exact (matching_of_equiv hab).mono fun _ _ hvw => hequal (hvw.imp fun _ _ => Or.inl)
    · exact hkept a (hs.chain_lt (List.mem_cons_of_mem _ ha)) (Nat.ne_of_lt (hs.outer_lt a ha))
        fun hat => hapart.right (hat ▸ List.mem_cons_of_mem _ ha)
    · exact hkept b (ht.chain_lt (List.mem_cons_of_mem _ hb))
        (fun hbs => hapart.left (hbs ▸ List.mem_cons_of_mem _ hb)) (Nat.ne_of_lt (ht.outer_lt b hb))

theorem analyzeBlock_binds (returns : Option Ty) {stmts : List Stmt}
    {ts : List (Typed.Stmt Ty)} (haccepts : Accepts σ.scopes s (stmts.flatMap Stmt.declared))
    (hr : ∀ r, returns = some r → ∃ p, r = .prim p)
    (h : analyzeBlock s returns stmts σ = .ok ts σ₁) :
    AddsEntries s (ts.flatMap Typed.Stmt.bindings) σ.scopes σ₁.scopes := by
  induction stmts generalizing σ ts with
  | nil =>
    obtain ⟨rfl, rfl⟩ := pure_eq_ok.1 h
    exact (Kept.refl _ _).adds s
  | cons stmt stmts ih =>
    obtain ⟨t, ts, σ', ht, hts, rfl⟩ := block_inv h
    rw [List.flatMap_cons, accepts_append] at haccepts
    obtain ⟨hat, ht⟩ := analyzeStmt_typed s returns stmt haccepts.1 hr ht
    exact hat.trans (ih (ht.accepts haccepts.2 hat) hts)

/-- A program that is accepted binds in its scope what its analysis says that it binds. -/
theorem analyze_binds (hs : Accepts σ.scopes s p.declared) (h : analyze s p σ = .ok tp σ₁) :
    AddsEntries s tp.bindings σ.scopes σ₁.scopes := by
  cases p with
  | source stmts =>
    simp only [analyze, bind_eq_ok, pure_eq_ok] at h
    obtain ⟨ts, _, hts, rfl, rfl⟩ := h
    exact analyzeBlock_binds none hs (fun _ h => by cases h) hts
  | stmt stmt =>
    simp only [analyze, bind_eq_ok, pure_eq_ok] at h
    obtain ⟨t, _, ht, rfl, rfl⟩ := h
    exact (analyzeStmt_typed s none stmt hs (fun _ h => by cases h) ht).1
  | expr e =>
    simp only [analyze, bind_eq_ok, pure_eq_ok] at h
    obtain ⟨te, _, hte, rfl, rfl⟩ := h
    exact (kept_expr hte).adds s

/-- In two scopes that look alike, with equal types at the same names on the way out, analysis of a
program succeeds in both or fails in both with an error of one kind. If it succeeds, it gives two
programs of one shape with equal types at every node, and the two scopes, which have got the same
names, look alike again. A program that declares names must not give an object type more members. -/
theorem analyze_looksLike (hs : Accepts σ.scopes s p.declared) (ht : Accepts σ.scopes t p.declared)
    (hns : σ.scopes.Nested s) (hnt : σ.scopes.Nested t) (hst : s ≠ t)
    (hlike : σ.scopes.LooksLike s t) :
    match analyze s p σ with
    | .error e σ₁ => ∃ e' σ₂, analyze t p σ₁ = .error e' σ₂ ∧ e.kind = e'.kind
    | .ok tp σ₁ => ∃ tp' σ₂, analyze t p σ₁ = .ok tp' σ₂ ∧
        ProgramAlike (fun v w => v.equiv σ₂.scopes w = true) tp tp' ∧ σ₂.scopes.LooksLike s t ∧
        ∃ names, σ₂.scopes.names s = σ.scopes.names s ++ names ∧
          σ₂.scopes.names t = σ.scopes.names t ++ names := by
  have hapart := hlike.apart hns hnt hst
  have hadds := adds_analyze s p σ
  have hlt (a b : Nat) (hab : σ.scopes.EqualObjects a b) :
      a < σ.scopes.size ∧ b < (finalState (analyze s p σ)).scopes.size :=
    ⟨hs.refers_lt a hab.1, Nat.lt_of_lt_of_le (hs.refers_lt b hab.2.1) hadds.size_le⟩
  obtain ⟨htwins, halone⟩ :=
    twins_of_looksLike hs ht hlike hapart hadds programBinds_eq_nil hlt
  have hagree := tandem_analyze 0 p halone p.avoids_nil σ (finalState (analyze s p σ))
    (Nat.zero_le _) htwins
  have hadds' := adds_analyze t p (finalState (analyze s p σ))
  have ht' := ht.grow hadds (analyze_discovers p σ hs)
  cases hleft : analyze s p σ with
  | error e σ₁ =>
    simp only [hleft, finalState] at hagree ⊢
    generalize hright : analyze t p σ₁ = r at hagree
    cases hagree with
    | error he _ => exact ⟨_, _, rfl, he.kind_eq⟩
  | ok tp σ₁ =>
    simp only [hleft, finalState] at hadds hlt hagree hadds' ht' ⊢
    generalize hright : analyze t p σ₁ = r at hagree hadds'
    cases hagree with
    | @ok _ tp' _ σ₂ _ halike hend =>
      have hcorr := corresponds_end ht hadds hadds' programBinds_eq_nil hlt hend.toLinked
      refine ⟨tp', σ₂, rfl, halike.mono fun _ _ h => Ty.equiv_of_corresponds hcorr h,
        looksLike_end hs ht hlike hapart hadds hadds' programBinds_eq_nil hlt hend,
        tp.bindings.map Prod.fst, ?_, ?_⟩
      · rw [Forest.names, own_of_adds hadds' (Nat.lt_of_lt_of_le hs.own_lt hadds.size_le) hst]
        exact names_of_adds hs.toPlaced (analyze_binds hs hleft).names
      · rw [halike.names_eq, names_of_adds ht'.toPlaced (analyze_binds ht' hright).names,
          Forest.names, own_of_adds hadds ht.own_lt hst.symm, Forest.names]

/-- Scope 0 is the members of an object without fields and methods. Scope 1 has such an object too,
under the same name. -/
def mirrors : TypeScopes :=
  (((∅ : TypeScopes).addRoot (.singleton "this" (.object 0))).addRoot
    (.singleton "this" (.object 2))).addRoot (.singleton "this" (.object 2))

/-- `LET z = 1; this.z;` -/
def askSelf : Program :=
  .source [.letStmt (.mk "z" none (some (.literal (.integer 1)))),
    .exprStmt (.property (.var "this") "z")]

theorem looksLike_mirrors : mirrors.LooksLike 0 1 :=
  .cons (aligned_singleton "this" (by cbv)).matching .nil

/-- In the members of an object, the program gives the object the member that it asks for. -/
theorem told_apart_in_members : mirrors.LooksLike 0 1 ∧
    (∃ tp σ₁, analyze 0 askSelf ⟨mirrors, #[]⟩ = .ok tp σ₁ ∧
      ∃ e σ₂, analyze 1 askSelf σ₁ = .error e σ₂ ∧ e.kind = .undefinedMember) := by
  have hruns : (match analyze 0 askSelf ⟨mirrors, #[]⟩ with
      | .ok _ σ₁ =>
        match analyze 1 askSelf σ₁ with
        | .error e _ => decide (e.kind = .undefinedMember)
        | .ok .. => false
      | .error .. => false) = true := by cbv
  refine ⟨looksLike_mirrors, ?_⟩
  split at hruns
  · next tp σ₁ hleft =>
    split at hruns
    · next e σ₂ hright => exact ⟨tp, σ₁, hleft, e, σ₂, hright, of_decide_eq_true hruns⟩
    · cases hruns
  · cases hruns

/-- Two scopes, each with an object that has a number and a method that returns the object. The two
objects have their members in another order. -/
def cells : TypeScopes :=
  ((((∅ : TypeScopes).addRoot (.singleton "cell" (.object 2))).addRoot
    (.singleton "cell" (.object 3))).addRoot
    ((Bindings.singleton "value" (.prim .integer)).insert "self" (.fn [] (.object 2)))).addRoot
    ((Bindings.singleton "self" (.fn [] (.object 3))).insert "value" (.prim .integer))

/-- A name for the object, what it holds, and an assignment of the object to the name. -/
def copyCell : Program :=
  .source [.letStmt (.mk "copy" none (some (.methodCall (.var "cell") "self" []))),
    .letStmt (.mk "value" none (some (.property (.var "copy") "value"))),
    .assignStmt (.var "copy") (.var "cell")]

theorem open_cells {s : ScopeId} (hs : s < 2) : Open cells s := by
  have hrefers {a : ScopeId} : cells.Refers a → a = 2 ∨ a = 3 :=
    forall_refers (P := fun a => a = 2 ∨ a = 3) (by decide)
  have hplaced : ∀ s < 2, s < cells.size ∧ cells.outer s = [] := by decide
  refine ⟨⟨⟨(hplaced s hs).1, by simp [(hplaced s hs).2]⟩, fun a ha => ?_⟩, fun ha => ?_⟩
  · rcases hrefers ha with rfl | rfl <;> decide
  · rcases hrefers ha with rfl | rfl <;> exact absurd hs (by decide)

theorem looksLike_cells : cells.LooksLike 0 1 :=
  .cons (aligned_singleton "cell" (by cbv)).matching .nil

theorem accepts_mirrors {s : ScopeId} (hs : s < 3) : Accepts mirrors s [] := by
  have hplaced : ∀ s < 3, s < mirrors.size ∧ mirrors.outer s = [] := by decide
  refine ⟨⟨⟨(hplaced s hs).1, by simp [(hplaced s hs).2]⟩, fun a ha => ?_⟩, fun _ => rfl⟩
  exact forall_refers (P := (· < 3)) (by decide) ha

/-- `this.this;` -/
def askTwice : Program := .expr (.property (.var "this") "this")

/-- The theorem at two scopes whose objects are equal, each of a type that leads to itself, and at an
expression, of which one scope may be the members of an object. -/
theorem analyze_looksLike_cells :
    (∃ tp σ₁ tp' σ₂, analyze 0 copyCell ⟨cells, #[]⟩ = .ok tp σ₁ ∧
      analyze 1 copyCell σ₁ = .ok tp' σ₂ ∧
      ProgramAlike (fun v w => v.equiv σ₂.scopes w = true) tp tp' ∧ σ₂.scopes.LooksLike 0 1) ∧
    ∃ tp σ₁ tp' σ₂, analyze 0 askTwice ⟨mirrors, #[]⟩ = .ok tp σ₁ ∧
      analyze 1 askTwice σ₁ = .ok tp' σ₂ ∧
      ProgramAlike (fun v w => v.equiv σ₂.scopes w = true) tp tp' ∧ σ₂.scopes.LooksLike 0 1 := by
  have hruns : ((analyze 0 copyCell).run' ⟨cells, #[]⟩).isSome = true := by cbv
  have hasks : ((analyze 0 askTwice).run' ⟨mirrors, #[]⟩).isSome = true := by cbv
  have hcells := analyze_looksLike (σ := ⟨cells, #[]⟩) (p := copyCell)
    ((open_cells (s := 0) (by decide)).accepts _) ((open_cells (s := 1) (by decide)).accepts _)
    (fun _ h => absurd h List.not_mem_nil) (fun _ h => absurd h List.not_mem_nil) (by decide)
    looksLike_cells
  have hmirrors := analyze_looksLike (σ := ⟨mirrors, #[]⟩) (p := askTwice)
    (accepts_mirrors (by decide)) (accepts_mirrors (by decide))
    (fun _ h => absurd h List.not_mem_nil) (fun _ h => absurd h List.not_mem_nil) (by decide)
    looksLike_mirrors
  constructor
  · cases h : analyze 0 copyCell ⟨cells, #[]⟩ with
    | ok tp σ₁ =>
      rw [h] at hcells
      obtain ⟨tp', σ₂, hright, hequal, hlike, -⟩ := hcells
      exact ⟨tp, σ₁, tp', σ₂, rfl, hright, hequal, hlike⟩
    | error e σ₁ => simp [EStateM.run', EStateM.run, h] at hruns
  · cases h : analyze 0 askTwice ⟨mirrors, #[]⟩ with
    | ok tp σ₁ =>
      rw [h] at hmirrors
      obtain ⟨tp', σ₂, hright, hequal, hlike, -⟩ := hmirrors
      exact ⟨tp, σ₁, tp', σ₂, rfl, hright, hequal, hlike⟩
    | error e σ₁ => simp [EStateM.run', EStateM.run, h] at hasks

end Analysis

end ObjectLang
