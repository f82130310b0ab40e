import ObjectLang.Proofs.Analysis.Frame
import ObjectLang.Proofs.Analysis.Signature
import ObjectLang.Proofs.Scope.Visibility
import ObjectLang.Proofs.Scoping.Rules

/-!
Analysis finds well-scoped programs: what it accepts obeys the scoping rules in the names that are
seen from its scope, and binds the names that the program declares.
-/

namespace ObjectLang.Analysis

open Forest

variable {s : ScopeId} {st st' : State}

theorem declareMethods_names {ds : List DefDecl} {sigs : List Signature}
    (h : declareMethods s ds st = .ok sigs st') :
    AddsNames s (ds.map DefDecl.name) st.scopes st'.scopes := by
  obtain ⟨hsigs, hadds⟩ := declareMethods_ok h
  have hzip : (List.zipWith (fun d sig => (d.name, sig.toTy)) ds sigs).map Prod.fst =
      ds.map DefDecl.name := by
    clear h hadds
    induction hsigs with
    | nil => rfl
    | cons _ _ ih => simp [ih]
  have hnames := AddsEntries.names hadds
  rwa [hzip] at hnames

mutual

theorem analyzeExpr_scoped (s : ScopeId) (e : Expr) {st st' : State} {te : Typed.Expr Ty}
    (hp : Placed st.scopes s) (h : analyzeExpr s e st = .ok te st') :
    ExprScoped (st.scopes.namesFrom s) e := by
  cases e with
  | literal value => trivial
  | group inner =>
    obtain ⟨e, he, -⟩ := group_inv h
    exact analyzeExpr_scoped s inner hp he
  | binary symbol left right =>
    obtain ⟨op, l, r, t, st₁, st₂, hop, hl, hr, -⟩ := binary_inv h
    have hkept := (kept_expr hl).names
    have hr := analyzeExpr_scoped s right (hp.grow (hkept.adds s)) hr
    rw [namesFrom_of_kept hp hkept] at hr
    exact ⟨⟨op, hop⟩, analyzeExpr_scoped s left hp hl, hr⟩
  | var name =>
    obtain ⟨t, ht, -⟩ := var_inv h
    exact mem_namesFrom_of_lookup ht
  | property receiver name =>
    obtain ⟨object, members, t, ho, -⟩ := property_inv h
    exact analyzeExpr_scoped s receiver hp ho
  | call name args =>
    obtain ⟨params, returns, targs, hl, harity, hargs, -⟩ := call_inv h
    exact ⟨mem_namesFrom_of_lookup hl, analyzeArgs_scoped s args params hp harity hargs⟩
  | methodCall receiver name args =>
    obtain ⟨object, members, params, returns, targs, st₁, ho, -, -, harity, hargs, -⟩ :=
      methodCall_inv h
    have hkept := (kept_expr ho).names
    have hargs := analyzeArgs_scoped s args params (hp.grow (hkept.adds s)) harity hargs
    rw [namesFrom_of_kept hp hkept] at hargs
    exact ⟨analyzeExpr_scoped s receiver hp ho, hargs⟩
  | object name fields methods =>
    obtain ⟨tfields, sigs, tmethods, st₀, st₁, st₂, st₃, h₀, hf, hd, hself, h₃, hm, -⟩ :=
      object_inv h
    have hp₀ : Placed st₀.scopes st.scopes.size := h₀ ▸ placed_addRoot
    have hnames₀ : st₀.scopes.names st.scopes.size = [] := by rw [h₀, names_addRoot]; rfl
    have hroot₀ : st₀.scopes.namesAround st.scopes.size = [] := by rw [h₀, namesAround_addRoot]
    obtain ⟨hfs, haf⟩ := analyzeFields_scoped _ fields hp₀ hroot₀ hf
    have hp₁ := hp₀.grow haf
    have had := declareMethods_names hd
    have hp₂ := hp₁.grow had
    have has := (addsEntries_insert (Ty.object st.scopes.size) (not_mem_names hself)).names
    rw [← h₃] at has
    have hms := analyzeMethods_scoped _ methods sigs (hp₂.grow has) (declareMethods_ok hd).1 hm
    have hnames₂ : st₂.scopes.names st.scopes.size =
        fields.map LetDecl.name ++ methods.map DefDecl.name := by
      rw [names_of_adds hp₁ had, names_of_adds hp₀ haf, hnames₀, List.nil_append]
    rw [namesFrom, names_of_adds hp₂ has, hnames₂, namesAround_of_adds hp₂ has,
      namesAround_of_adds hp₁ had, namesAround_of_adds hp₀ haf, hroot₀, List.append_nil] at hms
    refine ⟨?_, ?_, hms⟩
    · rw [← hnames₂]
      exact (st₂.scopes.own st.scopes.size).names_nodup
    · rwa [hnames₀] at hfs
  | misplaced kind => exact (misplaced_inv h).elim

theorem analyzeArgs_scoped (s : ScopeId) (es : List Expr) (params : List Ty) {st st' : State}
    {tes : List (Typed.Expr Ty)} (hp : Placed st.scopes s) (hlen : es.length = params.length)
    (h : analyzeArgs s es params st = .ok tes st') : ArgsScoped (st.scopes.namesFrom s) es := by
  match es, params with
  | [], [] => trivial
  | e :: es, param :: params =>
    obtain ⟨t, ts, st₁, ht, -, hts, -⟩ := args_inv h
    have hkept := (kept_expr ht).names
    have hts := analyzeArgs_scoped s es params (hp.grow (hkept.adds s)) (Nat.succ.inj hlen) hts
    rw [namesFrom_of_kept hp hkept] at hts
    exact ⟨analyzeExpr_scoped s e hp ht, hts⟩

theorem analyzeOption_scoped (s : ScopeId) (value : Option Expr) {st st' : State}
    {tvalue : Option (Typed.Expr Ty)} (hp : Placed st.scopes s)
    (h : analyzeOption s value st = .ok tvalue st') :
    OptionScoped (st.scopes.namesFrom s) value := by
  match value with
  | none => trivial
  | some e =>
    obtain ⟨t, ht, -⟩ := option_inv h
    exact analyzeExpr_scoped s e hp ht

theorem analyzeLet_scoped (s : ScopeId) (d : LetDecl) {st st' : State} {td : Typed.LetDecl Ty}
    (hp : Placed st.scopes s) (h : analyzeLet s d st = .ok td st') :
    LetScoped (st.scopes.namesAround s) (st.scopes.names s) d ∧
      AddsNames s [d.name] st.scopes st'.scopes := by
  match d with
  | .mk name typeName value =>
    obtain ⟨declared, tvalue, t, st₁, hfresh, -, hv, -, -, hfresh₁, hst, -⟩ := let_inv h
    have hkept := kept_option hv
    have hadds := addsEntries_insert t (not_mem_names hfresh₁)
    rw [← hst] at hadds
    exact ⟨⟨not_mem_names hfresh, analyzeOption_scoped s value hp hv⟩,
      AddsEntries.names (hkept.trans_adds hadds)⟩

theorem analyzeFields_scoped (s : ScopeId) (ds : List LetDecl) {st st' : State}
    {tds : List (Typed.LetDecl Ty)} (hp : Placed st.scopes s)
    (hroot : st.scopes.namesAround s = []) (h : analyzeFields s ds st = .ok tds st') :
    FieldsScoped (st.scopes.names s) ds ∧
      AddsNames s (ds.map LetDecl.name) st.scopes st'.scopes := by
  match ds with
  | [] =>
    obtain ⟨-, rfl⟩ := pure_eq_ok.1 h
    exact ⟨trivial, (Kept.refl _ _).adds s⟩
  | d :: ds =>
    obtain ⟨t, ts, st₁, ht, hts, -⟩ := fields_inv h
    obtain ⟨hd, had⟩ := analyzeLet_scoped s d hp ht
    obtain ⟨hds, hads⟩ := analyzeFields_scoped s ds (hp.grow had)
      (by rw [namesAround_of_adds hp had, hroot]) hts
    rw [hroot] at hd
    rw [names_of_adds hp had] at hds
    exact ⟨⟨hd, hds⟩, had.trans hads⟩

theorem analyzeDef_scoped (s : ScopeId) (d : DefDecl) (sig : Signature) {st st' : State}
    {td : Typed.DefDecl Ty} (hp : Placed st.scopes s) (hsig : signature d = .ok sig)
    (h : analyzeDef s d sig st = .ok td st') : DefScoped (st.scopes.namesFrom s) d := by
  match d with
  | .mk name params annotations returnType body =>
    obtain ⟨tbody, st₀, h₀, hb, -⟩ := def_inv h
    have hb := (analyzeBlock_scoped st.scopes.size _ body (h₀ ▸ placed_addChild hp) hb).1
    rw [h₀, namesAround_addChild hp, names_addChild] at hb
    have hparams : (Bindings.ofList (params.zip (sig.params.map Ty.prim))).names = params :=
      names_params hsig
    rw [hparams] at hb
    exact ⟨(signature_ok hsig).1, hb⟩

theorem analyzeMethods_scoped (s : ScopeId) (ds : List DefDecl) (sigs : List Signature)
    {st st' : State} {tds : List (Typed.DefDecl Ty)} (hp : Placed st.scopes s)
    (hsigs : List.Forall₂ (fun d sig => signature d = .ok sig) ds sigs)
    (h : analyzeMethods s ds sigs st = .ok tds st') :
    MethodsScoped (st.scopes.namesFrom s) ds := by
  match ds, sigs, hsigs with
  | [], [], _ => trivial
  | d :: ds, sig :: sigs, .cons hsig hsigs =>
    obtain ⟨t, ts, st₁, ht, hts, -⟩ := methods_inv h
    have hkept := (kept_def ht).names
    have hts := analyzeMethods_scoped s ds sigs (hp.grow (hkept.adds s)) hsigs hts
    rw [namesFrom_of_kept hp hkept] at hts
    exact ⟨analyzeDef_scoped s d sig hp hsig ht, hts⟩

theorem analyzeStmt_scoped (s : ScopeId) (returns : Option Ty) (stmt : Stmt) {st st' : State}
    {ts : Typed.Stmt Ty} (hp : Placed st.scopes s)
    (h : analyzeStmt s returns stmt st = .ok ts st') :
    StmtScoped (st.scopes.namesAround s) (st.scopes.names s) returns.isSome stmt ∧
      AddsNames s stmt.declared st.scopes st'.scopes := by
  cases stmt with
  | letStmt decl =>
    obtain ⟨d, hd, -⟩ := letStmt_inv h
    exact analyzeLet_scoped s decl hp hd
  | defStmt decl =>
    obtain ⟨sig, d, st₁, hfresh, hsig, hst, hd, -⟩ := defStmt_inv h
    have hn := not_mem_names hfresh
    have hadds := (addsEntries_insert sig.toTy hn).names
    rw [← hst] at hadds
    have hd' := analyzeDef_scoped s decl sig (hp.grow hadds) hsig hd
    rw [namesFrom, names_of_adds hp hadds, namesAround_of_adds hp hadds] at hd'
    exact ⟨⟨hn, hd'⟩, hadds.trans_kept (kept_def hd).names⟩
  | ifStmt condition thenBody elseBody =>
    obtain ⟨c, a, b, st₁, st₂, st₃, st₄, hc, -, h₂, ha, h₄, hb, -⟩ := ifStmt_inv h
    have hkc := (kept_expr hc).names
    have hka := (kept_body h₂ ha).names
    have hkb := (kept_body h₄ hb).names
    have hp₁ := hp.grow (hkc.adds s)
    have hp₃ := hp₁.grow (hka.adds s)
    have ha := (analyzeBlock_scoped _ returns thenBody (h₂ ▸ placed_addChild hp₁) ha).1
    have hb := (analyzeBlock_scoped _ returns elseBody (h₄ ▸ placed_addChild hp₃) hb).1
    rw [h₂, namesAround_addChild hp₁, names_addChild, namesFrom_of_kept hp hkc] at ha
    rw [h₄, namesAround_addChild hp₃, names_addChild, namesFrom_of_kept hp₁ hka,
      namesFrom_of_kept hp hkc] at hb
    exact ⟨⟨analyzeExpr_scoped s condition hp hc, ha, hb⟩, ((hkc.trans hka).trans hkb).adds s⟩
  | forStmt name iterable body =>
    obtain ⟨it, b, st₁, st₂, hit, -, h₂, hb, -⟩ := forStmt_inv h
    have hki := (kept_expr hit).names
    have hkb := (kept_body h₂ hb).names
    have hp₁ := hp.grow (hki.adds s)
    have hb := (analyzeBlock_scoped _ returns body (h₂ ▸ placed_addChild hp₁) hb).1
    rw [h₂, namesAround_addChild hp₁, names_addChild, namesFrom_of_kept hp hki] at hb
    exact ⟨⟨analyzeExpr_scoped s iterable hp hit, hb⟩, (hki.trans hkb).adds s⟩
  | returnStmt value =>
    obtain ⟨expected, tvalue, rfl, hv, -⟩ := returnStmt_inv h
    exact ⟨⟨rfl, analyzeOption_scoped s value hp hv⟩,
      (kept_option hv).names.adds s⟩
  | exprStmt e =>
    obtain ⟨t, ht, -⟩ := exprStmt_inv h
    exact ⟨analyzeExpr_scoped s e hp ht, (kept_expr ht).names.adds s⟩
  | assignStmt target value =>
    cases target with
    | var name =>
      obtain ⟨t, v, ht, hv, -⟩ := assignVar_inv h
      exact ⟨⟨mem_namesFrom_of_lookup ht, analyzeExpr_scoped s value hp hv⟩,
        (kept_expr hv).names.adds s⟩
    | property receiver name =>
      obtain ⟨object, members, t, v, st₁, ho, -, -, -, hv, -⟩ := assignProperty_inv h
      have hko := (kept_expr ho).names
      have hkv := (kept_expr hv).names
      have hv := analyzeExpr_scoped s value (hp.grow (hko.adds s)) hv
      rw [namesFrom_of_kept hp hko] at hv
      exact ⟨⟨analyzeExpr_scoped s receiver hp ho, hv⟩, (hko.trans hkv).adds s⟩
    | _ => exact (throw_eq_ok.1 h).elim
  | misplaced kind => exact (misplacedStmt_inv h).elim

theorem analyzeBlock_scoped (s : ScopeId) (returns : Option Ty) (stmts : List Stmt)
    {st st' : State} {ts : List (Typed.Stmt Ty)} (hp : Placed st.scopes s)
    (h : analyzeBlock s returns stmts st = .ok ts st') :
    BlockScoped (st.scopes.namesAround s) (st.scopes.names s) returns.isSome stmts ∧
      AddsNames s (stmts.flatMap Stmt.declared) st.scopes st'.scopes := by
  match stmts with
  | [] =>
    obtain ⟨-, rfl⟩ := pure_eq_ok.1 h
    exact ⟨trivial, (Kept.refl _ _).adds s⟩
  | stmt :: stmts =>
    obtain ⟨t, ts, st₁, ht, hts, -⟩ := block_inv h
    obtain ⟨hs, has⟩ := analyzeStmt_scoped s returns stmt hp ht
    obtain ⟨hb, hab⟩ := analyzeBlock_scoped s returns stmts (hp.grow has) hts
    rw [names_of_adds hp has, namesAround_of_adds hp has] at hb
    exact ⟨⟨hs, hb⟩, has.trans hab⟩

end

/-- A program that analysis accepts is well scoped, and adds the names that it declares to its
scope. -/
theorem analyze_scoped {p : Program} {tp : Typed.Program Ty} (hp : Placed st.scopes s)
    (h : analyze s p st = .ok tp st') :
    ProgramScoped (st.scopes.namesAround s) (st.scopes.names s) p ∧
      AddsNames s p.declared st.scopes st'.scopes := by
  cases p with
  | source stmts =>
    simp only [analyze, bind_eq_ok, pure_eq_ok] at h
    obtain ⟨ts, _, hts, -, rfl⟩ := h
    exact analyzeBlock_scoped s none stmts hp hts
  | stmt stmt =>
    simp only [analyze, bind_eq_ok, pure_eq_ok] at h
    obtain ⟨t, _, ht, -, rfl⟩ := h
    exact analyzeStmt_scoped s none stmt hp ht
  | expr e =>
    simp only [analyze, bind_eq_ok, pure_eq_ok] at h
    obtain ⟨te, _, hte, -, rfl⟩ := h
    exact ⟨analyzeExpr_scoped s e hp hte, (kept_expr hte).names.adds s⟩

end ObjectLang.Analysis
