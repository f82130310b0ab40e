import ObjectLang.Proofs.Analysis.Signature
import ObjectLang.Proofs.Erasure.Analysis
import ObjectLang.Proofs.Resolution.Rules
import ObjectLang.Proofs.Typing.Soundness

/-!
Programs that analysis accepts obey the rules for running them. The types come from the analysed
program, where every part has its place, the rest from the program itself.
-/

namespace ObjectLang.Analysis

open Forest Typed

variable {Γ : TypeScopes} {aim : Aim}

theorem asksMember_of_analyzeExpr {s : ScopeId} {e : Expr} {st st' : State} {te : Typed.Expr Ty}
    (h : analyzeExpr s e st = .ok te st') (ha : e.AsksMember) : te.AsksMember := by
  match e with
  | .property receiver name =>
    obtain ⟨object, members, t, -, -, -, rfl⟩ := property_inv h
    trivial
  | .group inner =>
    obtain ⟨ti, hti, rfl⟩ := group_inv h
    have hi : ti.AsksMember := asksMember_of_analyzeExpr hti ha
    exact hi

theorem detaches_of_analyzeExpr {s : ScopeId} {e : Expr} {st st' : State} {te : Typed.Expr Ty}
    {t : Ty} (h : analyzeExpr s e st = .ok te st') (hd : e.Detaches t) : te.Detaches t :=
  ⟨hd.1, asksMember_of_analyzeExpr h hd.2⟩

section Bindings

variable {s : ScopeId} {returns : Option Ty} {st st' : State}

/-- What an analysed statement says that it binds is what it has bound. -/
theorem stmtBinds_of_ok {stmt : Stmt} {t : Typed.Stmt Ty}
    (h : analyzeStmt s returns stmt st = .ok t st') : stmtBinds s st stmt = t.bindings := by
  cases stmt with
  | letStmt decl =>
    obtain ⟨d, hd, rfl⟩ := letStmt_inv h
    obtain ⟨name, typeName, value⟩ := decl
    rw [stmtBinds, hd]
    obtain ⟨_, _, _, _, -, -, -, -, -, -, -, rfl⟩ := let_inv hd
    rfl
  | defStmt decl =>
    obtain ⟨sig, d, st₁, hfresh, hsig, -, hd, rfl⟩ := defStmt_inv h
    rw [stmtBinds, hfresh, if_neg nofun, hsig]
    obtain ⟨name, params, annotations, returnType, body⟩ := decl
    obtain ⟨_, _, -, -, rfl⟩ := def_inv hd
    exact congrArg (fun t => [(name, t)]) (toTy_eq hsig)
  | ifStmt condition thenBody elseBody =>
    obtain ⟨_, _, _, _, _, _, _, -, -, -, -, -, -, rfl⟩ := ifStmt_inv h
    rfl
  | forStmt name iterable body =>
    obtain ⟨_, _, _, _, -, -, -, -, rfl⟩ := forStmt_inv h
    rfl
  | returnStmt value =>
    obtain ⟨_, _, -, -, -, rfl⟩ := returnStmt_inv h
    rfl
  | exprStmt e =>
    obtain ⟨_, -, rfl⟩ := exprStmt_inv h
    rfl
  | assignStmt target value =>
    cases target with
    | var name =>
      obtain ⟨_, _, -, -, -, rfl⟩ := assignVar_inv h
      rfl
    | property receiver name =>
      obtain ⟨_, _, _, _, _, -, -, -, -, -, -, rfl⟩ := assignProperty_inv h
      rfl
    | _ => exact (throw_eq_ok.1 h).elim
  | misplaced kind => exact (misplacedStmt_inv h).elim

theorem blockBinds_of_ok {stmts : List Stmt} {ts : List (Typed.Stmt Ty)}
    (h : analyzeBlock s returns stmts st = .ok ts st') :
    blockBinds s returns st stmts = ts.flatMap Stmt.bindings := by
  induction stmts generalizing st ts with
  | nil =>
    obtain ⟨rfl, -⟩ := pure_eq_ok.1 h
    rfl
  | cons stmt stmts ih =>
    obtain ⟨t, ts, st₁, ht, hts, rfl⟩ := block_inv h
    rw [blockBinds, stmtBinds_of_ok ht, ht, List.flatMap_cons, ← ih hts]

/-- No name is bound twice in a block. -/
theorem nodup_bindings (hs : s < st.scopes.size) {stmts : List Stmt} {ts : List (Typed.Stmt Ty)}
    (h : analyzeBlock s returns stmts st = .ok ts st') :
    ((ts.flatMap Stmt.bindings).map Prod.fst).Nodup := by
  have hadds := adds_analyzeBlock s returns stmts st
  rw [blockBinds_of_ok h, h] at hadds
  have hview := hadds.view_eq s hs
  rw [if_pos rfl] at hview
  have hnodup := (st'.scopes.own s).names_nodup
  rw [show (st'.scopes.own s).entries = _ from hview, List.map_append] at hnodup
  exact (List.nodup_append.1 hnodup).2.1

end Bindings

mutual

theorem analyzeExpr_has (s : ScopeId) (e : Expr) {env : Blocks} {π : Path} {st st' : State}
    {te : Typed.Expr Ty}
    (h : analyzeExpr s e st = .ok te st') (ht : ExprTyped Γ env.env te)
    (hr : aim.Typed → te.MethodsStay) (hk : ∀ k ∈ te.nodes, aim.Clears k)
    (hat : aim.Sees π ⟨env, .expr te⟩) : e.Has Γ aim env π te.type := by
  have hknows : aim.Knows π e te.type := ⟨env, te, hat, (analyzeExpr_erase s e h).1, rfl⟩
  cases e with
  | literal value =>
    obtain ⟨p, hp, rfl, -⟩ := literal_inv h
    exact ⟨hknows, p, hp, rfl⟩
  | group inner =>
    obtain ⟨e, he, rfl⟩ := group_inv h
    refine ⟨hknows, ?_⟩
    show inner.Has Γ aim env (.part 0 :: π) e.type
    cases ht with
    | group ht =>
      exact analyzeExpr_has s inner he ht hr (List.forall_mem_cons.1 hk).2 (hat.turn rfl)
  | binary symbol left right =>
    obtain ⟨op, l, r, t, st₁, st₂, hop, hl, hright, -, rfl⟩ := binary_inv h
    obtain ⟨hself, hparts⟩ := List.forall_mem_cons.1 hk
    obtain ⟨hkl, hkr⟩ := List.forall_mem_append.1 hparts
    cases ht with
    | binary htl htr htop =>
      exact ⟨hknows, op, l.type, r.type, hop,
        analyzeExpr_has s left hl htl (fun ha => (hr ha).1) hkl (hat.turn rfl),
        analyzeExpr_has s right hright htr (fun ha => (hr ha).2) hkr (hat.turn rfl), htop, hself⟩
  | var name =>
    obtain ⟨t, -, rfl, -⟩ := var_inv h
    cases ht with
    | var ht => exact ⟨hknows, Blocks.exists_find ht⟩
  | property receiver name =>
    obtain ⟨object, members, t, ho, -, -, rfl⟩ := property_inv h
    cases ht with
    | property ht hm hl =>
      refine ⟨hknows, _, ?_, hl⟩
      rw [← hm]
      exact analyzeExpr_has s receiver ho ht hr (List.forall_mem_cons.1 hk).2 (hat.turn rfl)
  | call name args =>
    obtain ⟨params, returns, targs, -, harity, hargs, rfl⟩ := call_inv h
    cases ht with
    | call hl ht =>
      obtain ⟨place, hl⟩ := Blocks.exists_find hl
      exact ⟨hknows, _, place, hl, analyzeArgs_have s args params harity hargs ht hr
        (List.forall_mem_cons.1 hk).2 (hat.turn rfl)⟩
  | methodCall receiver name args =>
    obtain ⟨object, members, params, returns, targs, st₁, ho, -, -, harity, hargs, rfl⟩ :=
      methodCall_inv h
    obtain ⟨hko, hka⟩ := List.forall_mem_append.1 (List.forall_mem_cons.1 hk).2
    cases ht with
    | methodCall ht hm hl hta =>
      refine ⟨hknows, _, _, ?_, hl, analyzeArgs_have s args params harity hargs hta
        (fun ha => (hr ha).2) hka (hat.turn rfl)⟩
      rw [← hm]
      exact analyzeExpr_has s receiver ho ht (fun ha => (hr ha).1) hko (hat.turn rfl)
  | object name fields methods =>
    obtain ⟨tfields, sigs, tmethods, st₀, st₁, st₂, st₃, -, hf, hd, -, -, hm, rfl⟩ := object_inv h
    obtain ⟨hkf, hkm⟩ := List.forall_mem_append.1 (List.forall_mem_cons.1 hk).2
    cases ht with
    | object htf hown htm =>
      have hnodup : (tmethods.map Typed.DefDecl.name).Nodup := by
        have hnodup := (Γ.own st.scopes.size).names_nodup
        rw [hown, members, List.map_append, List.map_append] at hnodup
        have hmethods := (List.nodup_append.1 (List.nodup_append.1 hnodup).1).2.1
        rwa [List.map_map, show (Prod.fst ∘ DefDecl.binding) = Typed.DefDecl.name from
          funext fun ⟨_, _, _, _⟩ => rfl] at hmethods
      refine ⟨hknows, _, _, _, rfl, hown,
        analyzeFields_have _ fields hf htf (fun ha => (hr ha).1) hkf (hat.turn rfl), ?_⟩
      exact analyzeMethods_have _ methods sigs (declareMethods_ok hd).1 hm htm
        (fun ha => (hr ha).2) hkm fun td htd => hat.turn (methodBody?_of_mem hnodup htd)
  | misplaced kind => exact (misplaced_inv h).elim

theorem analyzeArgs_have (s : ScopeId) (es : List Expr) (params : List Ty) {env : Blocks} {π : Path}
    {st st' : State} {params' : List Ty} {tes : List (Typed.Expr Ty)}
    (hlen : es.length = params.length) (h : analyzeArgs s es params st = .ok tes st')
    (ht : ArgsTyped Γ env.env tes params') (hr : aim.Typed → ArgsStay tes)
    (hk : ∀ k ∈ argsNodes tes, aim.Clears k) (hat : aim.Sees π ⟨env, .args tes⟩) :
    ArgsHave Γ aim env π es params' := by
  match es, params with
  | [], [] =>
    obtain ⟨rfl, -⟩ := pure_eq_ok.1 h
    cases ht
    rfl
  | e :: es, param :: params =>
    obtain ⟨t, ts, st₁, he, -, hes, rfl⟩ := args_inv h
    obtain ⟨hke, hkes⟩ := List.forall_mem_append.1 hk
    cases ht with
    | cons hte hsub htes =>
      exact ⟨_, _, _, rfl,
        analyzeExpr_has s e he hte (fun ha => (hr ha).1) hke (hat.turn rfl), hsub,
        analyzeArgs_have s es params (Nat.succ.inj hlen) hes htes (fun ha => (hr ha).2) hkes
          (hat.turn rfl)⟩

theorem analyzeLet_has (s : ScopeId) (d : LetDecl) {env : Blocks} {π : Path} {st st' : State}
    {td : Typed.LetDecl Ty}
    (h : analyzeLet s d st = .ok td st') (ht : LetTyped Γ env.env td)
    (hr : aim.Typed → td.MethodsStay) (hk : ∀ k ∈ td.nodes, aim.Clears k)
    (hat : ∀ x, (td.parts env)[0]? = some x → aim.Sees (.part 0 :: π) x) :
    d.Has Γ aim env π td.binding := by
  match d with
  | .mk name typeName value =>
    obtain ⟨declared, tvalue, t, st₁, -, -, hv, ht', -, -, -, rfl⟩ := let_inv h
    obtain ⟨hself, hkv⟩ := List.forall_mem_cons.1 hk
    match value with
    | none =>
      obtain ⟨rfl, -⟩ := pure_eq_ok.1 hv
      obtain ⟨p, rfl⟩ : ∃ p, t = .prim p := by
        cases declared with
        | none => exact ⟨.any, ht'⟩
        | some p => exact ⟨p, ht'⟩
      exact ⟨rfl, ⟨p, rfl, fun hp => hself hp rfl⟩, fun _ _ he => nomatch he⟩
    | some e =>
      obtain ⟨te, he, rfl⟩ := option_inv hv
      cases ht with
      | set ht hs =>
        refine ⟨rfl, ⟨_, analyzeExpr_has s e he ht (fun ha => (hr ha).2) hkv (hat _ rfl), hs⟩,
          fun ha e' he' hd => ?_⟩
        obtain rfl := Option.some.inj he'
        exact (hr ha).1 te rfl (detaches_of_analyzeExpr he hd)

theorem analyzeFields_have (s : ScopeId) (ds : List LetDecl) {env : Blocks} {π : Path}
    {st st' : State} {tds : List (Typed.LetDecl Ty)}
    (h : analyzeFields s ds st = .ok tds st') (ht : FieldsTyped Γ env.env tds)
    (hr : aim.Typed → FieldsStay tds) (hk : ∀ k ∈ fieldsNodes tds, aim.Clears k)
    (hat : aim.Sees π ⟨env, .fields tds⟩) :
    FieldsHave Γ aim env π ds (tds.map LetDecl.binding) := by
  match ds with
  | [] =>
    obtain ⟨rfl, -⟩ := pure_eq_ok.1 h
    rfl
  | d :: ds =>
    obtain ⟨t, ts, st₁, hd, hds, rfl⟩ := fields_inv h
    obtain ⟨hkd, hkds⟩ := List.forall_mem_append.1 hk
    have hdecl : aim.Sees (.part 0 :: π) ⟨env, .letDecl t⟩ := hat.turn rfl
    cases ht with
    | cons htd htds =>
      rw [← Blocks.env_extend] at htds
      exact ⟨_, _, rfl, analyzeLet_has s d hd htd (fun ha => (hr ha).1) hkd fun x hx => hdecl.turn hx,
        analyzeFields_have s ds hds htds (fun ha => (hr ha).2) hkds (hat.turn rfl)⟩

theorem analyzeDef_has (s : ScopeId) (d : DefDecl) (sig : Signature) {env : Blocks} {β : Path}
    {st st' : State} {td : Typed.DefDecl Ty}
    (hsig : signature d = .ok sig) (h : analyzeDef s d sig st = .ok td st')
    (ht : DefTyped Γ env.env td) (hr : aim.Typed → td.MethodsStay)
    (hk : ∀ k ∈ td.nodes, aim.Clears k) (hat : aim.Sees (.fn td.name :: β) (td.body env β)) :
    d.Has Γ aim env (.fn d.name :: β) td.binding := by
  match d with
  | .mk name params annotations returnType body =>
    obtain ⟨tbody, st₀, h₀, hb, rfl⟩ := def_inv h
    obtain ⟨hnodup, hlen⟩ := signature_ok hsig
    have hlen : params.length = sig.params.length := hlen.symm
    obtain ⟨hself, hkb⟩ := List.forall_mem_cons.1 hk
    have hs : st.scopes.size < st₀.scopes.size := by
      rw [h₀, size_addChild]
      exact Nat.lt_succ_self _
    have herase := (analyzeBlock_erase _ _ body hb).1
    let blocks : Blocks := (some (.fn name :: β), params.zip (sig.params.map .prim)) :: env
    have hat : aim.Sees (.fn name :: β) ⟨blocks, .block tbody⟩ := hat
    cases ht with
    | mk ht =>
      have ht : BlockTyped Γ blocks.env (some (.prim sig.returns)) tbody := ht
      obtain ⟨bs, hbs⟩ := analyzeBlock_has _ _ body hb ht hr hkb hat (fun _ _ hx => hat.turn hx)
        (nodup_bindings hs hb)
      refine ⟨rfl, hnodup, sig, bs, (toTy_eq hsig).symm, hlen, hbs, fun hp => ?_,
        tbody, hat, herase, ht⟩
      refine (hself hp).imp_right fun hreturns => ?_
      rwa [herase, blockReturns_bare] at hreturns

theorem analyzeMethods_have (s : ScopeId) (ds : List DefDecl) (sigs : List Signature)
    {env : Blocks} {π : Path} {st st' : State} {tds : List (Typed.DefDecl Ty)}
    (hsigs : List.Forall₂ (fun d sig => signature d = .ok sig) ds sigs)
    (h : analyzeMethods s ds sigs st = .ok tds st') (ht : MethodsTyped Γ env.env tds)
    (hr : aim.Typed → BodiesStay tds) (hk : ∀ k ∈ methodsNodes tds, aim.Clears k)
    (hat : ∀ td ∈ tds, aim.Sees (.fn td.name :: π) (td.body env π)) :
    MethodsHave Γ aim env π ds (tds.map DefDecl.binding) := by
  match ds, sigs, hsigs with
  | [], [], _ =>
    obtain ⟨rfl, -⟩ := pure_eq_ok.1 h
    rfl
  | d :: ds, sig :: sigs, .cons hsig hsigs =>
    obtain ⟨t, ts, st₁, hd, hds, rfl⟩ := methods_inv h
    obtain ⟨hkd, hkds⟩ := List.forall_mem_append.1 hk
    obtain ⟨hatd, hatds⟩ := List.forall_mem_cons.1 hat
    cases ht with
    | cons htd htds =>
      exact ⟨_, _, rfl, analyzeDef_has s d sig hsig hd htd (fun ha => (hr ha).1) hkd hatd,
        analyzeMethods_have s ds sigs hsigs hds htds (fun ha => (hr ha).2) hkds hatds⟩

theorem analyzeStmt_has (s : ScopeId) (returns : Option Ty) (stmt : Stmt) {env : Blocks}
    {β π : Path} {st st' : State} {ts : Typed.Stmt Ty}
    (h : analyzeStmt s returns stmt st = .ok ts st') (ht : StmtTyped Γ env.env returns ts)
    (hr : aim.Typed → ts.MethodsStay) (hk : ∀ k ∈ ts.nodes, aim.Clears k)
    (hat : aim.Sees π ⟨env, .stmt ts⟩)
    (hbody : ∀ name x, ts.body? (env.extend ts.bindings) β name = some x →
      aim.Sees (.fn name :: β) x) : stmt.Has Γ aim env β π returns ts.bindings := by
  have hchild {parent : ScopeId} {own : Bindings Ty} {Γ : TypeScopes} {st : State}
      (hst : st.scopes = Γ.addChild parent own) : Γ.size < st.scopes.size := by
    rw [hst, size_addChild]
    exact Nat.lt_succ_self _
  cases stmt with
  | letStmt decl =>
    obtain ⟨d, hd, rfl⟩ := letStmt_inv h
    cases ht with
    | letStmt ht => exact ⟨_, rfl, analyzeLet_has s decl hd ht hr hk fun x hx => hat.turn hx⟩
  | defStmt decl =>
    obtain ⟨sig, d, st₁, -, hsig, -, hd, rfl⟩ := defStmt_inv h
    cases ht with
    | defStmt ht =>
      rw [← Blocks.env_extend] at ht
      exact ⟨_, rfl, analyzeDef_has s decl sig hsig hd ht hr hk (hbody _ _ (if_pos rfl))⟩
  | ifStmt condition thenBody elseBody =>
    obtain ⟨c, a, b, st₁, st₂, st₃, st₄, hc, -, h₂, ha, h₄, hb, rfl⟩ := ifStmt_inv h
    obtain ⟨hkc, hkbodies⟩ := List.forall_mem_append.1 hk
    obtain ⟨hka, hkb⟩ := List.forall_mem_append.1 hkbodies
    have hata : aim.Sees (.part 1 :: π) ⟨(some (.part 1 :: π), []) :: env, .block a⟩ := hat.turn rfl
    have hatb : aim.Sees (.part 2 :: π) ⟨(some (.part 2 :: π), []) :: env, .block b⟩ := hat.turn rfl
    cases ht with
    | ifStmt htc hboolean hta htb =>
      exact ⟨rfl, hboolean ▸ analyzeExpr_has s condition hc htc (fun h => (hr h).1) hkc
          (hat.turn rfl),
        analyzeBlock_has _ _ thenBody ha hta (fun h => (hr h).2.1) hka hata (fun _ _ hx => hata.turn hx)
          (nodup_bindings (hchild h₂) ha),
        analyzeBlock_has _ _ elseBody hb htb (fun h => (hr h).2.2) hkb hatb (fun _ _ hx => hatb.turn hx)
          (nodup_bindings (hchild h₄) hb)⟩
  | forStmt name iterable body =>
    obtain ⟨it, b, st₁, st₂, hit, -, h₂, hb, rfl⟩ := forStmt_inv h
    obtain ⟨hki, hkb⟩ := List.forall_mem_append.1 hk
    have hatb : aim.Sees (.part 1 :: π)
        ⟨(some (.part 1 :: π), [(name, .prim .integer)]) :: env, .block b⟩ := hat.turn rfl
    cases ht with
    | forStmt hti hsub htb =>
      exact ⟨rfl, ⟨_, analyzeExpr_has s iterable hit hti (fun h => (hr h).1) hki (hat.turn rfl),
          hsub⟩,
        analyzeBlock_has _ _ body hb htb (fun h => (hr h).2) hkb hatb (fun _ _ hx => hatb.turn hx)
          (nodup_bindings (hchild h₂) hb)⟩
  | returnStmt value =>
    obtain ⟨expected, tvalue, rfl, hv, -, rfl⟩ := returnStmt_inv h
    match value with
    | none =>
      obtain ⟨rfl, -⟩ := pure_eq_ok.1 hv
      cases ht with
      | returnNil hs =>
        obtain ⟨p, rfl⟩ := Ty.exists_prim_of_isSubtype hs
        have hnil : (Ty.prim .nil).Includes .nil := rfl
        exact ⟨rfl, _, rfl, p, rfl, fun _ => hnil.of_isSubtype hs⟩
    | some e =>
      obtain ⟨te, he, rfl⟩ := option_inv hv
      cases ht with
      | returnValue ht hs =>
        exact ⟨rfl, expected, rfl, _, analyzeExpr_has s e he ht hr hk (hat.turn rfl), hs⟩
  | exprStmt e =>
    obtain ⟨t, he, rfl⟩ := exprStmt_inv h
    cases ht with
    | exprStmt ht => exact ⟨rfl, _, analyzeExpr_has s e he ht hr hk (hat.turn rfl)⟩
  | assignStmt target value =>
    cases target with
    | var name =>
      obtain ⟨t, v, -, hv, -, rfl⟩ := assignVar_inv h
      cases ht with
      | assignVar hl ht hs =>
        obtain ⟨place, hl⟩ := Blocks.exists_find hl
        exact ⟨rfl, place, t, _, hl,
          analyzeExpr_has s value hv ht (fun ha => (hr ha).2) hk (hat.turn rfl), hs,
          fun ha hd => (hr ha).1 (detaches_of_analyzeExpr hv hd)⟩
    | property receiver name =>
      obtain ⟨object, members, t, v, st₁, ho, -, -, hfn, hv, -, rfl⟩ := assignProperty_inv h
      obtain ⟨hko, hkv⟩ := List.forall_mem_append.1 hk
      cases ht with
      | assignProperty hto hm hl _ htv hs =>
        refine ⟨rfl, _, t, _, ?_, hl, fun ⟨ps, r, hpr⟩ => hfn ps r hpr,
          analyzeExpr_has s value hv htv (fun h => (hr h).2) hkv (hat.turn rfl), hs⟩
        rw [← hm]
        exact analyzeExpr_has s receiver ho hto (fun h => (hr h).1) hko (hat.turn rfl)
    | _ => exact (throw_eq_ok.1 h).elim
  | misplaced kind => exact (misplacedStmt_inv h).elim

/-- The functions of a block, which is at `β`, are found by their names. -/
theorem analyzeBlock_has (s : ScopeId) (returns : Option Ty) (stmts : List Stmt)
    {env : Blocks} {β π : Path} {st st' : State} {ts : List (Typed.Stmt Ty)}
    (h : analyzeBlock s returns stmts st = .ok ts st')
    (ht : BlockTyped Γ env.env returns ts) (hr : aim.Typed → BlockStays ts)
    (hk : ∀ k ∈ blockNodes ts, aim.Clears k) (hat : aim.Sees π ⟨env, .block ts⟩)
    (hbodies : ∀ name x, blockBody? β name env ts = some x → aim.Sees (.fn name :: β) x)
    (hnodup : ((ts.flatMap Stmt.bindings).map Prod.fst).Nodup) :
    ∃ bs, BlockHas Γ aim env β π returns stmts bs := by
  match stmts with
  | [] => exact ⟨[], rfl⟩
  | stmt :: stmts =>
    obtain ⟨t, ts, st₁, hst, hsts, rfl⟩ := block_inv h
    obtain ⟨hkt, hkts⟩ := List.forall_mem_append.1 hk
    have hlater := hnodup
    rw [List.flatMap_cons, List.map_append] at hlater
    have hrest : aim.Sees (.part 1 :: π) ⟨env.extend t.bindings, .block ts⟩ := hat.turn rfl
    cases ht with
    | cons htst htsts =>
      rw [← Blocks.env_extend] at htsts
      obtain ⟨bs, hbs⟩ := analyzeBlock_has s returns stmts hsts htsts (fun ha => (hr ha).2) hkts
        hrest (fun name x hx => hbodies name x (blockBody?_cons hnodup hx))
        (List.nodup_append.1 hlater).2.1
      refine ⟨_, _, bs, rfl, analyzeStmt_has s returns stmt hst htst (fun ha => (hr ha).1) hkt
        (hat.turn rfl) (fun name x hx => hbodies name x ?_), hbs⟩
      rw [blockBody?, hx, Option.some_or]

end

/-- A program that analysis accepts obeys the rules for running it, with the types that there are in
the end. -/
theorem analyze_has {st st' : State} {s : ScopeId} {p : Program} {tp : Typed.Program Ty}
    {env : Blocks} (ho : Open st.scopes s) (henv : env.env = st.scopes.env s)
    (h : analyze s p st = .ok tp st') (hr : aim.Typed → tp.MethodsStay)
    (hk : ∀ k ∈ tp.nodes, aim.Clears k) (hat : aim.Sees [] ⟨env, .block tp.block⟩) :
    ∃ bs, p.Has st'.scopes aim env bs := by
  cases p with
  | source stmts =>
    simp only [analyze, bind_eq_ok, pure_eq_ok] at h
    obtain ⟨ts, _, hts, rfl, rfl⟩ := h
    have ht := (analyzeBlock_typed s none stmts (ho.accepts _) (by simp) hts).holds _ (settled_refl _)
    rw [← henv] at ht
    exact analyzeBlock_has s none stmts hts ht hr hk hat (fun _ _ hx => hat.turn hx)
      (nodup_bindings ho.own_lt hts)
  | stmt stmt =>
    simp only [analyze, bind_eq_ok, pure_eq_ok] at h
    obtain ⟨t, _, hst, rfl, rfl⟩ := h
    have ht := (analyzeStmt_typed s none stmt (ho.accepts _) (by simp) hst).2.holds _ (settled_refl _)
    rw [← henv] at ht
    refine ⟨_, analyzeStmt_has s none stmt hst ht hr hk (hat.turn rfl) fun name x hx => hat.turn ?_⟩
    show blockBody? [] name env [t] = some x
    rw [blockBody?, hx, Option.some_or]
  | expr e =>
    simp only [analyze, bind_eq_ok, pure_eq_ok] at h
    obtain ⟨te, _, he, rfl, rfl⟩ := h
    have ht := (analyzeExpr_typed s e ho.toGrounded he).1.holds _ (settled_refl _)
    rw [← henv] at ht
    have hstmt : aim.Sees [.part 0] ⟨env, .stmt (.exprStmt te)⟩ := hat.turn rfl
    exact ⟨[], rfl, _, analyzeExpr_has s e he ht hr hk (hstmt.turn rfl)⟩

end ObjectLang.Analysis
