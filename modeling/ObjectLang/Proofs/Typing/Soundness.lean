import Mathlib
import ObjectLang.Proofs.Analysis.Frame
import ObjectLang.Proofs.Analysis.Signature
import ObjectLang.Proofs.Scoping.Rules
import ObjectLang.Proofs.Typing.Scopes

/-!
Analysis finds well-typed programs. A check is made while the scopes are still growing, so what is
carried along is that it comes out the same in all scopes that agree on the types known so far.
-/

namespace ObjectLang.Analysis

open Forest Typed

variable {s : ScopeId} {st st' : State} {t u v : Ty} {op : Operator}

theorem bothNumeric_ok {b : Bool} (h : bothNumeric t u st = .ok b st') :
    st' = st ∧ (b = true → ∃ p ∈ [Prim.integer, .decimal], t = .prim p ∧ u = .prim p) := by
  simp only [bothNumeric, bind_eq_ok, sameType_apply, EStateM.Result.ok.injEq] at h
  obtain ⟨_, _, ⟨rfl, rfl⟩, h⟩ := h
  split at h
  · next ht =>
    rw [Ty.equiv_prim_iff] at ht
    subst ht
    cases h
    exact ⟨rfl, fun hu => ⟨.integer, by simp, rfl, Ty.prim_equiv_iff.1 hu⟩⟩
  · simp only [bind_eq_ok, sameType_apply, EStateM.Result.ok.injEq] at h
    obtain ⟨_, _, ⟨rfl, rfl⟩, h⟩ := h
    split at h
    · next ht =>
      rw [Ty.equiv_prim_iff] at ht
      subst ht
      cases h
      exact ⟨rfl, fun hu => ⟨.decimal, by simp, rfl, Ty.prim_equiv_iff.1 hu⟩⟩
    · cases h
      simp

theorem isSubtype_prim_congr {Γ₁ Γ₂ : TypeScopes} {q : Prim}
    (h : t.isSubtype Γ₁ (.prim q) = true) : t.isSubtype Γ₂ (.prim q) = true :=
  Ty.isSubtype_prim_iff.2 (Ty.isSubtype_prim_iff.1 h)

theorem arithmetic_ok (hop : op ∈ [Operator.add, .sub, .mul, .div])
    (h : (do if ← bothNumeric t u then return t else throw (.operandMismatch op t u) : AnalyzeM Ty)
      st = .ok v st') :
    st' = st ∧ (∃ p, v = .prim p) ∧ ∀ Γ, OperatorTyped Γ op t u v := by
  obtain ⟨b, _, hb, hrest⟩ := bind_eq_ok.1 h
  obtain ⟨rfl, hnum⟩ := bothNumeric_ok hb
  split at hrest
  · next htrue =>
    obtain ⟨rfl, rfl⟩ := pure_eq_ok.1 hrest
    obtain ⟨p, hp, rfl, rfl⟩ := hnum htrue
    exact ⟨rfl, ⟨p, rfl⟩, fun Γ => .arithmetic hop hp⟩
  · exact (throw_eq_ok.1 hrest).elim

/-- A binary expression obeys the table of operators in whatever scopes. -/
theorem binaryType_ok (h : binaryType op t u st = .ok v st') :
    st' = st ∧ (∃ p, v = .prim p) ∧ ∀ Γ, OperatorTyped Γ op t u v := by
  cases op with
  | and | or =>
    simp only [binaryType, bind_eq_ok, requireSubtype_eq_ok, pure_eq_ok] at h
    obtain ⟨_, _, ⟨ht, rfl⟩, _, _, ⟨hu, rfl⟩, rfl, rfl⟩ := h
    rw [Ty.isSubtype_boolean_iff] at ht hu
    subst ht hu
    exact ⟨rfl, ⟨_, rfl⟩, fun Γ => .logical (by simp)⟩
  | add =>
    simp only [binaryType, bind_eq_ok, sameType_apply, EStateM.Result.ok.injEq] at h
    obtain ⟨_, _, ⟨rfl, rfl⟩, h⟩ := h
    split at h
    · next ht =>
      obtain ⟨rfl, rfl⟩ := pure_eq_ok.1 h
      rw [Ty.equiv_prim_iff] at ht
      subst ht
      exact ⟨rfl, ⟨_, rfl⟩, fun Γ => .concatLeft⟩
    · simp only [bind_eq_ok, sameType_apply, EStateM.Result.ok.injEq] at h
      obtain ⟨_, _, ⟨rfl, rfl⟩, h⟩ := h
      split at h
      · next hu =>
        obtain ⟨rfl, rfl⟩ := pure_eq_ok.1 h
        rw [Ty.equiv_prim_iff] at hu
        subst hu
        exact ⟨rfl, ⟨_, rfl⟩, fun Γ => .concatRight⟩
      · exact arithmetic_ok (by simp) h
  | sub | mul | div => exact arithmetic_ok (by simp) h
  | eq | ne =>
    simp only [binaryType, bind_eq_ok, requireSubtype_eq_ok, pure_eq_ok] at h
    obtain ⟨_, _, ⟨ht, rfl⟩, _, _, ⟨hu, rfl⟩, rfl, rfl⟩ := h
    exact ⟨rfl, ⟨_, rfl⟩, fun Γ => .equality (by simp) (isSubtype_prim_congr ht)
      (isSubtype_prim_congr hu)⟩
  | lt | le | gt | ge =>
    simp only [binaryType, bind_eq_ok, requireSubtype_eq_ok, sameType_apply,
      EStateM.Result.ok.injEq] at h
    obtain ⟨_, _, ⟨ht, rfl⟩, _, _, ⟨hu, rfl⟩, _, _, ⟨rfl, rfl⟩, h⟩ := h
    split at h
    · next htu =>
      obtain ⟨rfl, rfl⟩ := pure_eq_ok.1 h
      obtain ⟨p, rfl⟩ := Ty.eq_prim_of_isSubtype ht nofun
      exact ⟨rfl, ⟨_, rfl⟩, fun Γ => .ordering (by simp) (isSubtype_prim_congr ht)
        (isSubtype_prim_congr hu) (Ty.prim_equiv_iff.2 (Ty.prim_equiv_iff.1 htu))⟩
    · exact (throw_eq_ok.1 h).elim

/-- What has been analysed obeys its rule in all scopes that keep the types known by then. -/
structure Secured (Γ₁ Γ₂ : TypeScopes) (P : TypeScopes → Prop) : Prop where
  advances : Advances Γ₁ Γ₂
  holds : ∀ Γ, Settled Γ₂ Γ → P Γ

section Secured

variable {Γ₁ Γ₂ Γ₃ : TypeScopes} {P Q : TypeScopes → Prop}

theorem Secured.after (h : Advances Γ₁ Γ₂) (hP : Secured Γ₂ Γ₃ P) : Secured Γ₁ Γ₃ P :=
  ⟨h.trans hP.advances, hP.holds⟩

theorem Secured.grounded (hP : Secured Γ₁ Γ₂ P) (hg : Grounded Γ₁ s) (h : BindingsKept Γ₁ Γ₂) :
    Grounded Γ₂ s :=
  hg.grow (h.adds s) hP.advances.toFindsNew

theorem Secured.opened {r : ScopeId} {added : List (String × Ty)} (hP : Secured Γ₁ Γ₂ P)
    (ho : Open Γ₁ s) (h : AddsEntries r added Γ₁ Γ₂) : Open Γ₂ s :=
  ho.grow h hP.advances.toFindsNew

theorem Secured.accepts {r : ScopeId} {added : List (String × Ty)} {names : List String}
    (hP : Secured Γ₁ Γ₂ P) (ht : Accepts Γ₁ s names) (h : AddsEntries r added Γ₁ Γ₂) :
    Accepts Γ₂ s names :=
  ht.grow h hP.advances.toFindsNew

theorem Secured.and (hP : Secured Γ₁ Γ₂ P) (hQ : Secured Γ₂ Γ₃ Q) :
    Secured Γ₁ Γ₃ fun Γ => P Γ ∧ Q Γ :=
  ⟨hP.advances.trans hQ.advances, fun Γ h =>
    ⟨hP.holds Γ (h.trans hQ.advances), hQ.holds Γ h⟩⟩

theorem Secured.imp (hP : Secured Γ₁ Γ₂ P) (h : ∀ Γ, Settled Γ₂ Γ → P Γ → Q Γ) :
    Secured Γ₁ Γ₂ Q :=
  ⟨hP.advances, fun Γ hΓ => h Γ hΓ (hP.holds Γ hΓ)⟩

/-- A body is analysed in a scope of its own that starts with names of primitive types. -/
theorem Secured.child {own : Bindings Ty} {returns : Option Ty} {body : List (Typed.Stmt Ty)}
    (hg : Grounded Γ₁ s) (hown : ∀ e ∈ own.entries, e.2.objects = [])
    (h : Γ₂ = Γ₁.addChild s own) (hb : Open Γ₂ Γ₁.size →
      Secured Γ₂ Γ₃ fun Γ => BlockTyped Γ (Γ₂.env Γ₁.size) returns body) :
    Secured Γ₁ Γ₃ fun Γ => BlockTyped Γ (own.entries :: Γ₁.env s) returns body := by
  subst h
  have hb := hb (open_addChild hg hown)
  rw [env_addChild hg] at hb
  exact hb.after (advances_addChild hg hown)

end Secured

theorem knows_toTy (Γ : TypeScopes) (sig : Signature) : Γ.Knows sig.toTy := by
  refine knows_fn.2 ⟨fun t ht => ?_, knows_prim _⟩
  obtain ⟨p, -, rfl⟩ := List.mem_map.1 ht
  exact knows_prim p

/-- The type that a variable gets is known when that of its value is. -/
theorem knows_declared {Γ : TypeScopes} {declared : Option Prim}
    {value : Option (Typed.Expr Ty)} (hk : ∀ v, value = some v → Γ.Knows v.type) :
    Γ.Knows ((declared.map Ty.prim <|> value.map Typed.Expr.type).getD (.prim .any)) := by
  cases declared with
  | some p => exact knows_prim p
  | none =>
    cases value with
    | some v => exact hk v rfl
    | none => exact knows_prim _

theorem objects_empty : ∀ e ∈ (∅ : Bindings Ty).entries, e.2.objects = [] := fun _ he => nomatch he

theorem objects_params {d : DefDecl} {sig : Signature} (h : signature d = .ok sig) :
    ∀ e ∈ (Bindings.ofList (d.params.zip (sig.params.map Ty.prim))).entries, e.2.objects = [] := by
  intro e he
  rw [entries_params h] at he
  obtain ⟨p, -, hp⟩ := List.mem_map.1 (List.of_mem_zip he).2
  rw [← hp, Ty.objects]

theorem advances_declareMethods {ds : List DefDecl} {sigs : List Signature}
    (ho : Open st.scopes s) (h : declareMethods s ds st = .ok sigs st') :
    Advances st.scopes st'.scopes := by
  induction ds generalizing sigs st with
  | nil =>
    obtain ⟨-, rfl⟩ := pure_eq_ok.1 h
    exact .refl _
  | cons d ds ih =>
    obtain ⟨sig, rest, st₁, hfresh, -, hst, hrest, -⟩ := declareMethods_inv h
    have hn := not_mem_names hfresh
    have hadv := advances_insert ho hn (knows_toTy _ sig)
    have ho₁ := ho.grow (addsEntries_insert _ hn) hadv.toFindsNew
    rw [← hst] at hadv ho₁
    exact hadv.trans (ih ho₁ hrest)

/-- What is known of an object when its fields have been analysed and everything else has been
declared: its members are complete, and its type has become one that names can have. -/
theorem members_declared {Γ : TypeScopes} {st₀ st₁ st₂ st₃ : State} {ds : List DefDecl}
    {sigs : List Signature} {fields : List (String × Ty)} (hlt : ∀ a, Γ.Refers a → a < Γ.size)
    (h₀ : st₀.scopes = Γ.addRoot ∅) (haf : AddsEntries Γ.size fields st₀.scopes st₁.scopes)
    (hf : Advances st₀.scopes st₁.scopes) (hd : declareMethods Γ.size ds st₁ = .ok sigs st₂)
    (hself : st₂.scopes.containsOwn Γ.size selfName = false)
    (h₃ : st₃.scopes = st₂.scopes.insert Γ.size selfName (.object Γ.size)) :
    Advances Γ st₃.scopes ∧ Grounded st₃.scopes Γ.size ∧
      st₃.scopes.env Γ.size = [fields ++ List.zipWith (fun d sig => (d.name, sig.toTy)) ds sigs ++
        [(selfName, .object Γ.size)]] ∧
      ∀ Γ', Settled st₃.scopes Γ' → Settled st₁.scopes Γ' := by
  have ho₀ : Open st₀.scopes Γ.size := h₀ ▸ open_addRoot hlt
  have hroot : Advances Γ st₀.scopes := h₀ ▸ advances_addRoot hlt
  have ho₁ := ho₀.grow haf hf.toFindsNew
  have had := (declareMethods_ok hd).2
  have hadv := advances_declareMethods ho₁ hd
  have ho₂ := ho₁.grow had hadv.toFindsNew
  have hn := not_mem_names hself
  have has := addsEntries_insert (Ty.object Γ.size) hn
  have hadv₃ :=
    advances_insertSelf ho₂ ((hroot.trans hf).trans hadv) hlt (Nat.le_refl _) hn
  have hsettled (Γ') (hΓ' : Settled st₃.scopes Γ') : Settled st₁.scopes Γ' :=
    (settled_of_insert ho₂ hn (h₃ ▸ hΓ')).trans hadv
  rw [← h₃] at has hadv₃
  refine ⟨hadv₃, ⟨ho₂.toPlaced.grow has, fun _ => hadv₃.refers_lt hlt⟩, ?_, hsettled⟩
  · rw [env_of_adds ho₂.toGrounded has, env_of_adds ho₁.toGrounded had,
      env_of_adds ho₀.toGrounded haf, h₀, env_addRoot]
    rfl

mutual

theorem analyzeExpr_typed (s : ScopeId) (e : Expr) {st st' : State} {te : Typed.Expr Ty}
    (hg : Grounded st.scopes s) (h : analyzeExpr s e st = .ok te st') :
    (Secured st.scopes st'.scopes fun Γ => ExprTyped Γ (st.scopes.env s) te) ∧
      st'.scopes.Knows te.type := by
  cases e with
  | literal value =>
    obtain ⟨p, hp, rfl, rfl⟩ := literal_inv h
    exact ⟨⟨.refl _, fun Γ _ => .literal hp⟩, knows_prim p⟩
  | group inner =>
    obtain ⟨e, he, rfl⟩ := group_inv h
    obtain ⟨he, hk⟩ := analyzeExpr_typed s inner hg he
    exact ⟨he.imp fun Γ _ he => .group he, hk⟩
  | binary symbol left right =>
    obtain ⟨op, l, r, t, st₁, st₂, -, hl, hr, ht, rfl⟩ := binary_inv h
    obtain ⟨rfl, ⟨p, rfl⟩, hop⟩ := binaryType_ok ht
    have hkept := kept_expr hl
    have hl := (analyzeExpr_typed s left hg hl).1
    have hr := (analyzeExpr_typed s right (hl.grounded hg hkept) hr).1
    rw [env_of_kept hg hkept] at hr
    exact ⟨(hl.and hr).imp fun Γ _ h => .binary h.1 h.2 (hop Γ), knows_prim p⟩
  | var name =>
    obtain ⟨t, ht, rfl, rfl⟩ := var_inv h
    exact ⟨⟨.refl _, fun Γ _ => .var (lookup_env.trans ht)⟩, knows_lookup ht⟩
  | property receiver name =>
    obtain ⟨object, members, t, ho, hm, ht, rfl⟩ := property_inv h
    obtain ⟨ho, hk⟩ := analyzeExpr_typed s receiver hg ho
    rw [hm] at hk
    refine ⟨ho.imp fun Γ hΓ ho => .property ho hm ?_, knows_lookupOwn ht⟩
    rw [lookupOwn, hΓ members (refers_of_knows hk)]
    exact ht
  | call name args =>
    obtain ⟨params, returns, targs, hl, harity, hargs, rfl⟩ := call_inv h
    obtain ⟨hkp, hkr⟩ := knows_fn.1 (knows_lookup hl)
    have hargs := analyzeArgs_typed s args params hg hkp harity hargs
    exact ⟨hargs.imp fun Γ _ h => .call (lookup_env.trans hl) h, hargs.advances.knows hkr⟩
  | methodCall receiver name args =>
    obtain ⟨object, members, params, returns, targs, st₁, ho, hm, ht, harity, hargs, rfl⟩ :=
      methodCall_inv h
    have hkept := kept_expr ho
    obtain ⟨ho, hk⟩ := analyzeExpr_typed s receiver hg ho
    rw [hm] at hk
    obtain ⟨hkp, hkr⟩ := knows_fn.1 (knows_lookupOwn ht)
    have hargs := analyzeArgs_typed s args params (ho.grounded hg hkept) hkp harity
      hargs
    rw [env_of_kept hg hkept] at hargs
    refine ⟨(ho.and hargs).imp fun Γ hΓ h => .methodCall h.1 hm ?_ h.2, hargs.advances.knows hkr⟩
    rw [lookupOwn, (hΓ.trans hargs.advances) members (refers_of_knows hk)]
    exact ht
  | object name fields methods =>
    obtain ⟨tfields, sigs, tmethods, st₀, st₁, st₂, st₃, h₀, hf, hd, hself, h₃, hm, rfl⟩ :=
      object_inv h
    have ho₀ : Open st₀.scopes st.scopes.size := h₀ ▸ open_addRoot hg.refers_lt
    obtain ⟨haf, hf⟩ := analyzeFields_typed st.scopes.size fields ho₀ hf
    obtain ⟨hadv, hg₃, henv, hsettled⟩ :=
      members_declared hg.refers_lt h₀ haf hf.advances hd hself h₃
    have hkept : BindingsKept st₃.scopes st'.scopes := (keeps_analyzeMethods _ _ _).of_ok hm
    obtain ⟨hb, hm⟩ :=
      analyzeMethods_typed st.scopes.size methods sigs hg₃ (declareMethods_ok hd).1 hm
    rw [← hb] at henv
    have hown : (st'.scopes.own st.scopes.size).entries =
        members tfields tmethods (.object st.scopes.size) := by
      rw [hkept.own_eq hg₃.own_lt]
      exact (List.cons.inj henv).1
    have hself : st'.scopes.Refers st.scopes.size := by
      refine ⟨st.scopes.size, selfName, .object st.scopes.size, Bindings.find?_eq_some_iff.2 ?_,
        List.mem_singleton.2 rfl⟩
      rw [hown]
      simp [members]
    rw [henv] at hm
    refine ⟨⟨hadv.trans hm.advances, fun Γ hΓ => .object ?_ ?_ (hm.holds Γ hΓ)⟩, ?_⟩
    · have hf := hf.holds Γ (hsettled Γ (hΓ.trans hm.advances))
      rwa [h₀, env_addRoot] at hf
    · rw [hΓ _ hself]
      exact hown
    · intro a ha
      rw [List.mem_singleton.1 ha]
      exact hself
  | misplaced kind => exact (misplaced_inv h).elim

theorem analyzeArgs_typed (s : ScopeId) (es : List Expr) (params : List Ty) {st st' : State}
    {tes : List (Typed.Expr Ty)} (hg : Grounded st.scopes s)
    (hk : ∀ t ∈ params, st.scopes.Knows t) (hlen : es.length = params.length)
    (h : analyzeArgs s es params st = .ok tes st') :
    Secured st.scopes st'.scopes fun Γ => ArgsTyped Γ (st.scopes.env s) tes params := by
  match es, params with
  | [], [] =>
    obtain ⟨rfl, rfl⟩ := pure_eq_ok.1 h
    exact ⟨.refl _, fun Γ _ => .nil⟩
  | e :: es, param :: params =>
    obtain ⟨t, ts, st₁, ht, hs, hts, rfl⟩ := args_inv h
    have hkept := kept_expr ht
    obtain ⟨ht, hkt⟩ := analyzeExpr_typed s e hg ht
    have hkp := hk param (List.mem_cons_self ..)
    have hts := analyzeArgs_typed s es params (ht.grounded hg hkept)
      (fun u hu => ht.advances.knows (hk u (List.mem_cons_of_mem _ hu))) (Nat.succ.inj hlen) hts
    rw [env_of_kept hg hkept] at hts
    refine (ht.and hts).imp fun Γ hΓ h => .cons h.1 ?_ h.2
    rw [isSubtype_of_settled (hΓ.trans hts.advances) hkt (ht.advances.knows hkp)]
    exact hs

theorem analyzeOption_typed (s : ScopeId) (value : Option Expr) {st st' : State}
    {tvalue : Option (Typed.Expr Ty)} (hg : Grounded st.scopes s)
    (h : analyzeOption s value st = .ok tvalue st') :
    (Secured st.scopes st'.scopes fun Γ => ∀ v, tvalue = some v →
      ExprTyped Γ (st.scopes.env s) v) ∧ ∀ v, tvalue = some v → st'.scopes.Knows v.type := by
  match value with
  | none =>
    obtain ⟨rfl, rfl⟩ := pure_eq_ok.1 h
    exact ⟨⟨.refl _, fun Γ _ => nofun⟩, nofun⟩
  | some e =>
    obtain ⟨t, ht, rfl⟩ := option_inv h
    obtain ⟨ht, hk⟩ := analyzeExpr_typed s e hg ht
    refine ⟨ht.imp fun Γ _ ht v hv => ?_, fun v hv => ?_⟩
    · exact Option.some.inj hv ▸ ht
    · exact Option.some.inj hv ▸ hk

theorem analyzeLet_typed (s : ScopeId) (d : LetDecl) {st st' : State} {td : Typed.LetDecl Ty}
    (ho : Open st.scopes s) (h : analyzeLet s d st = .ok td st') :
    AddsEntries s [td.binding] st.scopes st'.scopes ∧
      Secured st.scopes st'.scopes fun Γ => LetTyped Γ (st.scopes.env s) td := by
  match d with
  | .mk name typeName value =>
    obtain ⟨declared, tvalue, t, st₁, -, -, hv, ht, hs, hfresh, hst, rfl⟩ := let_inv h
    have hkept := kept_option hv
    obtain ⟨hv, hk⟩ := analyzeOption_typed s value ho.toGrounded hv
    have ho₁ := hv.opened ho (hkept.adds s)
    have hn := not_mem_names hfresh
    have hkt : st₁.scopes.Knows t := ht ▸ knows_declared hk
    have hadds := addsEntries_insert t hn
    have hadv := advances_insert ho₁ hn hkt
    rw [← hst] at hadds hadv
    refine ⟨hkept.trans_adds hadds, hv.advances.trans hadv, fun Γ hΓ => ?_⟩
    have hΓ := hΓ.trans hadv
    cases tvalue with
    | none => exact .unset
    | some v =>
      refine .set (hv.holds Γ hΓ v rfl) ?_
      rw [isSubtype_of_settled hΓ (hk v rfl) hkt]
      exact hs v rfl

theorem analyzeFields_typed (s : ScopeId) (ds : List LetDecl) {st st' : State}
    {tds : List (Typed.LetDecl Ty)} (ho : Open st.scopes s)
    (h : analyzeFields s ds st = .ok tds st') :
    AddsEntries s (tds.map LetDecl.binding) st.scopes st'.scopes ∧
      Secured st.scopes st'.scopes fun Γ => FieldsTyped Γ (st.scopes.env s) tds := by
  match ds with
  | [] =>
    obtain ⟨rfl, rfl⟩ := pure_eq_ok.1 h
    exact ⟨(Kept.refl _ _).adds s, .refl _, fun Γ _ => .nil⟩
  | d :: ds =>
    obtain ⟨t, ts, st₁, ht, hts, rfl⟩ := fields_inv h
    obtain ⟨hat, ht⟩ := analyzeLet_typed s d ho ht
    obtain ⟨hats, hts⟩ := analyzeFields_typed s ds (ht.opened ho hat) hts
    rw [env_of_adds ho.toGrounded hat] at hts
    exact ⟨hat.trans hats, (ht.and hts).imp fun Γ _ h => .cons h.1 h.2⟩

theorem analyzeDef_typed (s : ScopeId) (d : DefDecl) (sig : Signature) {st st' : State}
    {td : Typed.DefDecl Ty} (hg : Grounded st.scopes s) (hsig : signature d = .ok sig)
    (h : analyzeDef s d sig st = .ok td st') :
    td.binding = (d.name, sig.toTy) ∧
      Secured st.scopes st'.scopes fun Γ => DefTyped Γ (st.scopes.env s) td := by
  match d with
  | .mk name params annotations returnType body =>
    obtain ⟨tbody, st₀, h₀, hb, rfl⟩ := def_inv h
    have hb := Secured.child hg (objects_params hsig) h₀ fun ho =>
      analyzeBlock_typed st.scopes.size (some (.prim sig.returns)) body (ho.accepts _)
        (fun r hr => ⟨_, (Option.some.inj hr).symm⟩) hb
    rw [entries_params hsig] at hb
    exact ⟨Prod.ext rfl (toTy_eq hsig).symm, hb.imp fun Γ _ h => .mk h⟩

theorem analyzeMethods_typed (s : ScopeId) (ds : List DefDecl) (sigs : List Signature)
    {st st' : State} {tds : List (Typed.DefDecl Ty)} (hg : Grounded st.scopes s)
    (hsigs : List.Forall₂ (fun d sig => signature d = .ok sig) ds sigs)
    (h : analyzeMethods s ds sigs st = .ok tds st') :
    tds.map DefDecl.binding = List.zipWith (fun d sig => (d.name, sig.toTy)) ds sigs ∧
      Secured st.scopes st'.scopes fun Γ => MethodsTyped Γ (st.scopes.env s) tds := by
  match ds, sigs, hsigs with
  | [], [], _ =>
    obtain ⟨rfl, rfl⟩ := pure_eq_ok.1 h
    exact ⟨rfl, .refl _, fun Γ _ => .nil⟩
  | d :: ds, sig :: sigs, .cons hsig hsigs =>
    obtain ⟨t, ts, st₁, ht, hts, rfl⟩ := methods_inv h
    have hkept := kept_def ht
    obtain ⟨hbt, ht⟩ := analyzeDef_typed s d sig hg hsig ht
    obtain ⟨hbts, hts⟩ :=
      analyzeMethods_typed s ds sigs (ht.grounded hg hkept) hsigs hts
    rw [env_of_kept hg hkept] at hts
    exact ⟨by simp [hbt, hbts], (ht.and hts).imp fun Γ _ h => .cons h.1 h.2⟩

theorem analyzeStmt_typed (s : ScopeId) (returns : Option Ty) (stmt : Stmt) {st st' : State}
    {ts : Typed.Stmt Ty} (haccepts : Accepts st.scopes s stmt.declared)
    (hr : ∀ r, returns = some r → ∃ p, r = .prim p)
    (h : analyzeStmt s returns stmt st = .ok ts st') :
    AddsEntries s ts.bindings st.scopes st'.scopes ∧
      Secured st.scopes st'.scopes fun Γ => StmtTyped Γ (st.scopes.env s) returns ts := by
  have hg := haccepts.toGrounded
  cases stmt with
  | letStmt decl =>
    have ho := haccepts.isOpen (List.cons_ne_nil _ _)
    obtain ⟨d, hd, rfl⟩ := letStmt_inv h
    obtain ⟨had, hd⟩ := analyzeLet_typed s decl ho hd
    exact ⟨had, hd.imp fun Γ _ hd => .letStmt hd⟩
  | defStmt decl =>
    have ho := haccepts.isOpen (List.cons_ne_nil _ _)
    obtain ⟨sig, d, st₁, hfresh, hsig, hst, hd, rfl⟩ := defStmt_inv h
    have hn := not_mem_names hfresh
    have has := addsEntries_insert sig.toTy hn
    have hadv := advances_insert ho hn (knows_toTy _ sig)
    rw [← hst] at has hadv
    have hkept := kept_def hd
    obtain ⟨hb, hd⟩ := analyzeDef_typed s decl sig (hg.grow has hadv.toFindsNew) hsig hd
    rw [env_of_adds hg has, ← hb] at hd
    rw [← hb] at has
    exact ⟨has.trans_kept hkept, (hd.after hadv).imp fun Γ _ hd => .defStmt hd⟩
  | ifStmt condition thenBody elseBody =>
    obtain ⟨c, a, b, st₁, st₂, st₃, st₄, hc, hbool, h₂, ha, h₄, hb, rfl⟩ := ifStmt_inv h
    have hkc := kept_expr hc
    have hka := kept_body h₂ ha
    have hkb := kept_body h₄ hb
    have hc := (analyzeExpr_typed s condition hg hc).1
    have hg₁ := hc.grounded hg hkc
    have ha := Secured.child hg₁ objects_empty h₂ fun ho =>
      analyzeBlock_typed _ returns thenBody (ho.accepts _) hr ha
    have hg₃ := ha.grounded hg₁ hka
    have hb := Secured.child hg₃ objects_empty h₄ fun ho =>
      analyzeBlock_typed _ returns elseBody (ho.accepts _) hr hb
    rw [env_of_kept hg₁ hka, env_of_kept hg hkc] at hb
    rw [env_of_kept hg hkc] at ha
    exact ⟨((hkc.trans hka).trans hkb).adds s, (hc.and (ha.and hb)).imp fun Γ _ h =>
      .ifStmt h.1 (Ty.equiv_prim_iff.1 hbool) h.2.1 h.2.2⟩
  | forStmt name iterable body =>
    obtain ⟨it, b, st₁, st₂, hit, hs, h₂, hb, rfl⟩ := forStmt_inv h
    have hki := kept_expr hit
    have hkb := kept_body h₂ hb
    have hit := (analyzeExpr_typed s iterable hg hit).1
    have hg₁ := hit.grounded hg hki
    have hb := Secured.child hg₁ (by simp [Bindings.singleton, Ty.objects]) h₂ fun ho =>
      analyzeBlock_typed _ returns body (ho.accepts _) hr hb
    rw [env_of_kept hg hki] at hb
    exact ⟨(hki.trans hkb).adds s, (hit.and hb).imp fun Γ _ h =>
      .forStmt h.1 (isSubtype_prim_congr hs) h.2⟩
  | returnStmt value =>
    obtain ⟨expected, tvalue, rfl, hv, hs, rfl⟩ := returnStmt_inv h
    obtain ⟨p, rfl⟩ := hr expected rfl
    have hkept := kept_option hv
    have hv := (analyzeOption_typed s value hg hv).1
    refine ⟨hkept.adds s, hv.imp fun Γ _ h => ?_⟩
    cases tvalue with
    | none => exact .returnNil (isSubtype_prim_congr hs)
    | some v => exact .returnValue (h v rfl) (isSubtype_prim_congr hs)
  | exprStmt e =>
    obtain ⟨t, ht, rfl⟩ := exprStmt_inv h
    exact ⟨(kept_expr ht).adds s, (analyzeExpr_typed s e hg ht).1.imp fun Γ _ ht => .exprStmt ht⟩
  | assignStmt target value =>
    cases target with
    | var name =>
      obtain ⟨t, v, ht, hv, hs, rfl⟩ := assignVar_inv h
      have hkept := kept_expr hv
      obtain ⟨hv, hk⟩ := analyzeExpr_typed s value hg hv
      refine ⟨hkept.adds s, hv.imp fun Γ hΓ h => .assignVar (lookup_env.trans ht) h ?_⟩
      rw [isSubtype_of_settled hΓ hk (hv.advances.knows (knows_lookup ht))]
      exact hs
    | property receiver name =>
      obtain ⟨object, members, t, v, st₁, ho', hm, ht, hfn, hv, hs, rfl⟩ := assignProperty_inv h
      have hko := kept_expr ho'
      have hkv := kept_expr hv
      obtain ⟨hobj, hkobj⟩ := analyzeExpr_typed s receiver hg ho'
      rw [hm] at hkobj
      obtain ⟨hv, hk⟩ := analyzeExpr_typed s value (hobj.grounded hg hko) hv
      rw [env_of_kept hg hko] at hv
      refine ⟨(hko.trans hkv).adds s, (hobj.and hv).imp fun Γ hΓ h =>
        .assignProperty h.1 hm ?_ hfn h.2 ?_⟩
      · rw [lookupOwn, (hΓ.trans hv.advances) members (refers_of_knows hkobj)]
        exact ht
      · rw [isSubtype_of_settled hΓ hk (hv.advances.knows (knows_lookupOwn ht))]
        exact hs
    | _ => exact (throw_eq_ok.1 h).elim
  | misplaced kind => exact (misplacedStmt_inv h).elim

theorem analyzeBlock_typed (s : ScopeId) (returns : Option Ty) (stmts : List Stmt)
    {st st' : State} {ts : List (Typed.Stmt Ty)}
    (haccepts : Accepts st.scopes s (stmts.flatMap Stmt.declared))
    (hr : ∀ r, returns = some r → ∃ p, r = .prim p)
    (h : analyzeBlock s returns stmts st = .ok ts st') :
    Secured st.scopes st'.scopes fun Γ => BlockTyped Γ (st.scopes.env s) returns ts := by
  match stmts with
  | [] =>
    obtain ⟨rfl, rfl⟩ := pure_eq_ok.1 h
    exact ⟨.refl _, fun Γ _ => .nil⟩
  | stmt :: stmts =>
    obtain ⟨t, ts, st₁, ht, hts, rfl⟩ := block_inv h
    rw [List.flatMap_cons, accepts_append] at haccepts
    obtain ⟨hat, ht⟩ := analyzeStmt_typed s returns stmt haccepts.1 hr ht
    have hts := analyzeBlock_typed s returns stmts (ht.accepts haccepts.2 hat) hr hts
    rw [env_of_adds haccepts.1.toGrounded hat] at hts
    exact (ht.and hts).imp fun Γ _ h => .cons h.1 h.2

end

/-- A program that analysis accepts obeys all typing rules, with the types as they are in the end. It
may run in any scope that exists; if that is the members of an object type, the program must not give
the object more of them. -/
theorem analyze_typed {p : Program} {tp : Typed.Program Ty} (hs : Accepts st.scopes s p.declared)
    (h : analyze s p st = .ok tp st') : ProgramTyped st'.scopes (st.scopes.env s) tp := by
  cases p with
  | source stmts =>
    simp only [analyze, bind_eq_ok, pure_eq_ok] at h
    obtain ⟨ts, _, hts, rfl, rfl⟩ := h
    exact (analyzeBlock_typed s none stmts hs nofun hts).holds _ (settled_refl _)
  | stmt stmt =>
    simp only [analyze, bind_eq_ok, pure_eq_ok] at h
    obtain ⟨t, _, ht, rfl, rfl⟩ := h
    exact (analyzeStmt_typed s none stmt hs nofun ht).2.holds _ (settled_refl _)
  | expr e =>
    simp only [analyze, bind_eq_ok, pure_eq_ok] at h
    obtain ⟨te, _, hte, rfl, rfl⟩ := h
    exact (analyzeExpr_typed s e hs.toGrounded hte).1.holds _ (settled_refl _)

/-- What there is when an object without fields and methods has been analysed. Its members are in
scope 1. -/
def solitary : State :=
  finalState (analyze 0 (.expr (.object none [] [])) ⟨(∅ : TypeScopes).addRoot ∅, #[]⟩)

/-- `IF TRUE DO LET o = OBJECT END; o = this; END LET z = 1;` -/
def outgrowing : Program :=
  .source [.ifStmt (.literal (.boolean true))
      [.letStmt (.mk "o" none (some (.object none [] []))),
        .assignStmt (.var "o") (.var "this")] [],
    .letStmt (.mk "z" none (some (.literal (.integer 1))))]

/-- The program with its types. The object that it makes has its members in scope 3. -/
def outgrowingTyped : Typed.Program Ty :=
  .source [.ifStmt (.literal (.boolean true) (.prim .boolean))
      [.letStmt (.mk "o" (.object 3) (some (.object none [] [] (.object 3)))),
        .assignVar "o" (.object 3) (.var "this" (.object 1))] [],
    .letStmt (.mk "z" (.prim .integer) (some (.literal (.integer 1) (.prim .integer))))]

/-- Among the members of an object, analysis accepts an assignment of the object, and what comes after
it gives the object one more member, so that it is no longer of the type of the variable. -/
theorem ill_typed_in_members : ∃ st', analyze 1 outgrowing solitary = .ok outgrowingTyped st' ∧
    ¬ ProgramTyped st'.scopes (solitary.scopes.env 1) outgrowingTyped := by
  have hruns : analyze 1 outgrowing solitary =
      .ok outgrowingTyped (finalState (analyze 1 outgrowing solitary)) := by cbv
  have hgrown : (Ty.object 1).isSubtype (finalState (analyze 1 outgrowing solitary)).scopes
      (.object 3) = false := by cbv
  refine ⟨_, hruns, fun htyped => ?_⟩
  cases htyped with
  | cons hif _ =>
    cases hif with
    | ifStmt _ _ hthen _ =>
      cases hthen with
      | cons _ hrest =>
        cases hrest with
        | cons hassign _ =>
          cases hassign with
          | assignVar _ _ hsub => exact Bool.false_ne_true (hgrown.symm.trans hsub)

/-- An object whose method returns the object, and a change of its field. -/
def counter : Program :=
  .source [.letStmt (.mk "counter" none (some (.object none
      [.mk "count" none (some (.literal (.integer 1)))]
      [.mk "self" [] [] none [.returnStmt (some (.var "this"))]]))),
    .assignStmt (.property (.var "counter") "count")
      (.binary "+" (.property (.var "counter") "count") (.literal (.integer 1)))]

/-- `IF TRUE DO LET o = this; o = this; END` -/
def inside : Program :=
  .source [.ifStmt (.literal (.boolean true))
    [.letStmt (.mk "o" none (some (.var "this"))), .assignStmt (.var "o") (.var "this")] []]

theorem accepts_solitary : Accepts solitary.scopes 1 inside.declared := by
  have hscopes : solitary.scopes =
      ((∅ : TypeScopes).addRoot ∅).addRoot (.singleton "this" (.object 1)) := by cbv
  rw [hscopes]
  have houter : (((∅ : TypeScopes).addRoot ∅).addRoot (.singleton "this" (.object 1))).outer 1 = [] :=
    by decide
  refine ⟨⟨⟨by decide, by simp [houter]⟩, fun a ha => ?_⟩, fun _ => rfl⟩
  exact forall_refers (P := (· < 2)) (by decide) ha

/-- The theorem at a program with a type that leads to itself, in a scope of its own, and among the
members of an object, where a block declares a name. -/
theorem analyze_typed_counter :
    (Accepts ((∅ : TypeScopes).addRoot ∅) 0 counter.declared ∧
      ∃ tp st', analyze 0 counter ⟨(∅ : TypeScopes).addRoot ∅, #[]⟩ = .ok tp st' ∧
        ProgramTyped st'.scopes (((∅ : TypeScopes).addRoot ∅).env 0) tp) ∧
    Accepts solitary.scopes 1 inside.declared ∧
      ∃ tp st', analyze 1 inside solitary = .ok tp st' ∧
        ProgramTyped st'.scopes (solitary.scopes.env 1) tp := by
  have ho : Open ((∅ : TypeScopes).addRoot ∅) 0 :=
    open_addRoot fun a ha => (not_refers_empty ha).elim
  have hruns : ((analyze 0 counter).run' ⟨(∅ : TypeScopes).addRoot ∅, #[]⟩).isSome = true := by
    cbv
  have hinside : ((analyze 1 inside).run' solitary).isSome = true := by cbv
  refine ⟨⟨ho.accepts _, ?_⟩, accepts_solitary, ?_⟩
  · cases h : analyze 0 counter ⟨(∅ : TypeScopes).addRoot ∅, #[]⟩ with
    | ok tp st' => exact ⟨tp, st', rfl, analyze_typed (ho.accepts _) h⟩
    | error e st' => simp [EStateM.run', EStateM.run, h] at hruns
  · cases h : analyze 1 inside solitary with
    | ok tp st' => exact ⟨tp, st', rfl, analyze_typed accepts_solitary h⟩
    | error e st' => simp [EStateM.run', EStateM.run, h] at hinside

end ObjectLang.Analysis
