import ObjectLang.Proofs.Analysis.Steps

/-!
What has been checked when analysis succeeds: one lemma for each form of expressions and statements,
with the runs of its parts one after another.
-/

namespace ObjectLang.Analysis

-- The equations of both functions are made here once, not by every lemma that needs them.
attribute [grind =] analyzeExpr analyzeStmt

variable {s : ScopeId} {st st' : State} {name : String} {te : Typed.Expr Ty}

theorem literal_inv {value : Literal} (h : analyzeExpr s (.literal value) st = .ok te st') :
    ∃ p, literalType value = .ok p ∧ te = .literal value (.prim p) ∧ st' = st := by
  simp only [analyzeExpr, bind_eq_ok, ofExcept_eq_ok, pure_eq_ok] at h
  obtain ⟨p, _, ⟨hp, rfl⟩, rfl, rfl⟩ := h
  exact ⟨p, hp, rfl, rfl⟩

theorem group_inv {inner : Expr} (h : analyzeExpr s (.group inner) st = .ok te st') :
    ∃ e, analyzeExpr s inner st = .ok e st' ∧ te = .group e e.type := by
  simp only [analyzeExpr, bind_eq_ok, pure_eq_ok] at h
  obtain ⟨e, _, he, rfl, rfl⟩ := h
  exact ⟨e, he, rfl⟩

theorem binary_inv {symbol : String} {left right : Expr}
    (h : analyzeExpr s (.binary symbol left right) st = .ok te st') :
    ∃ op l r t st₁ st₂, Operator.ofSymbol? symbol = some op ∧
      analyzeExpr s left st = .ok l st₁ ∧ analyzeExpr s right st₁ = .ok r st₂ ∧
      binaryType op l.type r.type st₂ = .ok t st' ∧ te = .binary op l r t := by
  simp only [analyzeExpr, bind_eq_ok] at h
  obtain ⟨l, st₁, hl, r, st₂, hr, h⟩ := h
  cases hop : Operator.ofSymbol? symbol with
  | none => simp [hop, throw_eq_ok] at h
  | some op =>
    simp only [hop, bind_eq_ok, pure_eq_ok] at h
    obtain ⟨t, _, ht, rfl, rfl⟩ := h
    exact ⟨op, l, r, t, st₁, st₂, rfl, hl, hr, ht, rfl⟩

theorem var_inv (h : analyzeExpr s (.var name) st = .ok te st') :
    ∃ t, st.scopes.lookup s name = some t ∧ te = .var name t ∧ st' = st := by
  simp only [analyzeExpr, bind_eq_ok, lookup_eq_ok] at h
  obtain ⟨_, st, ⟨rfl, rfl⟩, h⟩ := h
  cases hl : st.scopes.lookup s name with
  | none => simp [hl, throw_eq_ok] at h
  | some t =>
    simp only [hl, pure_eq_ok] at h
    obtain ⟨rfl, rfl⟩ := h
    exact ⟨t, rfl, rfl, rfl⟩

theorem property_inv {receiver : Expr} (h : analyzeExpr s (.property receiver name) st = .ok te st') :
    ∃ object members t, analyzeExpr s receiver st = .ok object st' ∧
      object.type = .object members ∧ st'.scopes.lookupOwn members name = some t ∧
      te = .property object name t := by
  simp only [analyzeExpr, bind_eq_ok, memberType_eq_ok, pure_eq_ok] at h
  obtain ⟨object, _, ho, t, _, ⟨members, hm, ht, rfl⟩, rfl, rfl⟩ := h
  exact ⟨object, members, t, ho, hm, ht, rfl⟩

theorem call_inv {args : List Expr} (h : analyzeExpr s (.call name args) st = .ok te st') :
    ∃ params returns targs, st.scopes.lookup s name = some (.fn params returns) ∧
      args.length = params.length ∧ analyzeArgs s args params st = .ok targs st' ∧
      te = .call name targs returns := by
  simp only [analyzeExpr, bind_eq_ok, lookup_eq_ok] at h
  obtain ⟨_, st, ⟨rfl, rfl⟩, h⟩ := h
  cases hl : st.scopes.lookup s name with
  | none => simp [hl, throw_eq_ok] at h
  | some t =>
    simp only [hl, bind_eq_ok, requireArity_eq_ok, pure_eq_ok] at h
    obtain ⟨⟨params, returns⟩, _, hc, _, _, ⟨harity, rfl⟩, targs, _, hargs, rfl, rfl⟩ := h
    obtain ⟨rfl, rfl⟩ := calleeType_eq_ok.1 hc
    exact ⟨params, returns, targs, rfl, harity, hargs, rfl⟩

theorem methodCall_inv {receiver : Expr} {args : List Expr}
    (h : analyzeExpr s (.methodCall receiver name args) st = .ok te st') :
    ∃ object members params returns targs st₁, analyzeExpr s receiver st = .ok object st₁ ∧
      object.type = .object members ∧
      st₁.scopes.lookupOwn members name = some (.fn params returns) ∧
      args.length = params.length ∧ analyzeArgs s args params st₁ = .ok targs st' ∧
      te = .methodCall object name targs returns := by
  simp only [analyzeExpr, bind_eq_ok, memberType_eq_ok, requireArity_eq_ok, pure_eq_ok] at h
  obtain ⟨object, st₁, ho, t, _, ⟨members, hm, ht, rfl⟩, ⟨params, returns⟩, _, hc, _, _,
    ⟨harity, rfl⟩, targs, _, hargs, rfl, rfl⟩ := h
  obtain ⟨rfl, rfl⟩ := calleeType_eq_ok.1 hc
  exact ⟨object, members, params, returns, targs, _, ho, hm, ht, harity, hargs, rfl⟩

/-- The stages that an object goes through: fields, then all signatures, then the object's name for
itself, then the bodies. -/
theorem object_eq_ok {object : Option String} {fields : List LetDecl} {methods : List DefDecl} :
    analyzeExpr s (.object object fields methods) st = .ok te st' ↔
      (∀ word, object = some word → Prim.ofName? word = none) ∧ ∃ tfields sigs tmethods st₁ st₂,
        analyzeFields st.scopes.size fields
          ⟨st.scopes.addRoot ∅, st.trace.push (.analyzingObject object)⟩ = .ok tfields st₁ ∧
        declareMethods st.scopes.size methods st₁ = .ok sigs st₂ ∧
        st₂.scopes.containsOwn st.scopes.size selfName = false ∧
        analyzeMethods st.scopes.size methods sigs
          ⟨st₂.scopes.insert st.scopes.size selfName (.object st.scopes.size), st₂.trace⟩ =
            .ok tmethods st' ∧
        te = .object object tfields tmethods (.object st.scopes.size) := by
  simp only [analyzeExpr, bind_eq_ok, requireObjectName_eq_ok, openRoot_eq_ok, report_eq_ok,
    declareSelf_eq_ok, pure_eq_ok]
  constructor
  · rintro ⟨_, _, ⟨hname, rfl⟩, _, _, ⟨rfl, rfl⟩, _, _, rfl, tfields, st₁, hf, sigs, st₂, hd, _, _,
      ⟨hself, rfl⟩, tmethods, _, hm, rfl, rfl⟩
    exact ⟨hname, tfields, sigs, tmethods, st₁, st₂, hf, hd, hself, hm, rfl⟩
  · rintro ⟨hname, tfields, sigs, tmethods, st₁, st₂, hf, hd, hself, hm, rfl⟩
    exact ⟨(), st, ⟨hname, rfl⟩, _, _, ⟨rfl, rfl⟩, (), _, rfl, tfields, st₁, hf, sigs, st₂, hd, (), _,
      ⟨hself, rfl⟩, tmethods, st', hm, rfl, rfl⟩

theorem object_inv {object : Option String} {fields : List LetDecl} {methods : List DefDecl}
    (h : analyzeExpr s (.object object fields methods) st = .ok te st') :
    ∃ tfields sigs tmethods st₀ st₁ st₂ st₃, st₀.scopes = st.scopes.addRoot ∅ ∧
      analyzeFields st.scopes.size fields st₀ = .ok tfields st₁ ∧
      declareMethods st.scopes.size methods st₁ = .ok sigs st₂ ∧
      st₂.scopes.containsOwn st.scopes.size selfName = false ∧
      st₃.scopes = st₂.scopes.insert st.scopes.size selfName (.object st.scopes.size) ∧
      analyzeMethods st.scopes.size methods sigs st₃ = .ok tmethods st' ∧
      te = .object object tfields tmethods (.object st.scopes.size) := by
  obtain ⟨-, tfields, sigs, tmethods, st₁, st₂, hf, hd, hself, hm, rfl⟩ := object_eq_ok.1 h
  exact ⟨tfields, sigs, tmethods, _, st₁, st₂, _, rfl, hf, hd, hself, rfl, hm, rfl⟩

theorem misplaced_inv {kind : NodeKind} (h : analyzeExpr s (.misplaced kind) st = .ok te st') :
    False := throw_eq_ok.1 h

theorem args_inv {e : Expr} {es : List Expr} {param : Ty} {params : List Ty}
    {tes : List (Typed.Expr Ty)} (h : analyzeArgs s (e :: es) (param :: params) st = .ok tes st') :
    ∃ t ts st₁, analyzeExpr s e st = .ok t st₁ ∧ t.type.isSubtype st₁.scopes param = true ∧
      analyzeArgs s es params st₁ = .ok ts st' ∧ tes = t :: ts := by
  simp only [analyzeArgs, bind_eq_ok, requireSubtype_eq_ok, pure_eq_ok] at h
  obtain ⟨t, st₁, ht, _, _, ⟨hs, rfl⟩, ts, _, hts, rfl, rfl⟩ := h
  exact ⟨t, ts, _, ht, hs, hts, rfl⟩

theorem option_inv {e : Expr} {value : Option (Typed.Expr Ty)}
    (h : analyzeOption s (some e) st = .ok value st') :
    ∃ t, analyzeExpr s e st = .ok t st' ∧ value = some t := by
  simp only [analyzeOption, bind_eq_ok, pure_eq_ok] at h
  obtain ⟨t, _, ht, rfl, rfl⟩ := h
  exact ⟨t, ht, rfl⟩

theorem annotation_eq_ok {typeName : Option String} {declared : Option Prim} :
    (typeName.mapM fun word => MonadExcept.ofExcept (resolve word) : AnalyzeM (Option Prim)) st =
      .ok declared st' ↔ typeName.map resolve = declared.map .ok ∧ st' = st := by
  cases typeName with
  | none => cases declared <;> simp [pure_apply, eq_comm]
  | some word =>
    have hrun : ((some word).mapM fun word => MonadExcept.ofExcept (resolve word) :
        AnalyzeM (Option Prim)) st =
          match resolve word with
          | .ok p => .ok (some p) st
          | .error e => .error e st := by
      simp only [Option.mapM_some]
      cases resolve word <;> rfl
    rw [hrun]
    cases hr : resolve word <;> cases declared <;> simp [hr, eq_comm]

theorem let_inv {typeName : Option String} {value : Option Expr} {d : Typed.LetDecl Ty}
    (h : analyzeLet s (.mk name typeName value) st = .ok d st') :
    ∃ (declared : Option Prim) (tvalue : Option (Typed.Expr Ty)) (t : Ty) (st₁ : State),
      st.scopes.containsOwn s name = false ∧ typeName.map resolve = declared.map .ok ∧
      analyzeOption s value st = .ok tvalue st₁ ∧
      t = (declared.map Ty.prim <|> tvalue.map Typed.Expr.type).getD (.prim .any) ∧
      (∀ v, tvalue = some v → v.type.isSubtype st₁.scopes t = true) ∧
      st₁.scopes.containsOwn s name = false ∧ st'.scopes = st₁.scopes.insert s name t ∧
      d = .mk name t tvalue := by
  simp only [analyzeLet, bind_eq_ok, requireFresh_eq_ok] at h
  obtain ⟨_, st, ⟨hfresh, rfl⟩, declared, st₀, hresolved, tvalue, st₁, hvalue, h⟩ := h
  obtain ⟨hdeclared, rfl⟩ := annotation_eq_ok.1 hresolved
  cases tvalue with
  | none =>
    simp only [bind_eq_ok, define_eq_ok, pure_eq_ok] at h
    obtain ⟨_, _, ⟨hown, rfl⟩, rfl, rfl⟩ := h
    exact ⟨declared, none, _, st₁, hfresh, hdeclared, hvalue, rfl, by simp, hown, rfl, rfl⟩
  | some v =>
    simp only [bind_eq_ok, requireSubtype_eq_ok, define_eq_ok, pure_eq_ok] at h
    obtain ⟨_, _, ⟨hsub, rfl⟩, _, _, ⟨hown, rfl⟩, rfl, rfl⟩ := h
    exact ⟨declared, some v, _, _, hfresh, hdeclared, hvalue, rfl, by simpa using hsub, hown, rfl,
      rfl⟩

theorem fields_inv {d : LetDecl} {ds : List LetDecl} {tds : List (Typed.LetDecl Ty)}
    (h : analyzeFields s (d :: ds) st = .ok tds st') :
    ∃ t ts st₁, analyzeLet s d st = .ok t st₁ ∧ analyzeFields s ds st₁ = .ok ts st' ∧
      tds = t :: ts := by
  simp only [analyzeFields, bind_eq_ok, pure_eq_ok] at h
  obtain ⟨t, st₁, ht, ts, _, hts, rfl, rfl⟩ := h
  exact ⟨t, ts, st₁, ht, hts, rfl⟩

theorem def_inv {params : List String} {annotations : List (Option String)}
    {returnType : Option String} {body : List Stmt} {sig : Signature} {d : Typed.DefDecl Ty}
    (h : analyzeDef s (.mk name params annotations returnType body) sig st = .ok d st') :
    ∃ tbody st₀,
      st₀.scopes = st.scopes.addChild s (Bindings.ofList (params.zip (sig.params.map Ty.prim))) ∧
      analyzeBlock st.scopes.size (some (.prim sig.returns)) body st₀ = .ok tbody st' ∧
      d = .mk name (params.zip (sig.params.map Ty.prim)) (.prim sig.returns) tbody := by
  simp only [analyzeDef, bind_eq_ok, openChild_eq_ok, pure_eq_ok] at h
  obtain ⟨_, _, ⟨rfl, rfl⟩, tbody, _, hbody, rfl, rfl⟩ := h
  exact ⟨tbody, _, rfl, hbody, rfl⟩

theorem methods_inv {d : DefDecl} {ds : List DefDecl} {sig : Signature} {sigs : List Signature}
    {tds : List (Typed.DefDecl Ty)} (h : analyzeMethods s (d :: ds) (sig :: sigs) st = .ok tds st') :
    ∃ t ts st₁, analyzeDef s d sig st = .ok t st₁ ∧ analyzeMethods s ds sigs st₁ = .ok ts st' ∧
      tds = t :: ts := by
  simp only [analyzeMethods, bind_eq_ok, pure_eq_ok] at h
  obtain ⟨t, st₁, ht, ts, _, hts, rfl, rfl⟩ := h
  exact ⟨t, ts, st₁, ht, hts, rfl⟩

theorem block_inv {returns : Option Ty} {stmt : Stmt} {stmts : List Stmt}
    {tstmts : List (Typed.Stmt Ty)}
    (h : analyzeBlock s returns (stmt :: stmts) st = .ok tstmts st') :
    ∃ t ts st₁, analyzeStmt s returns stmt st = .ok t st₁ ∧
      analyzeBlock s returns stmts st₁ = .ok ts st' ∧ tstmts = t :: ts := by
  simp only [analyzeBlock, bind_eq_ok, pure_eq_ok] at h
  obtain ⟨t, st₁, ht, ts, _, hts, rfl, rfl⟩ := h
  exact ⟨t, ts, st₁, ht, hts, rfl⟩

theorem declareMethods_cons_eq_ok {d : DefDecl} {ds : List DefDecl} {sigs : List Signature} :
    declareMethods s (d :: ds) st = .ok sigs st' ↔
      ∃ sig rest, st.scopes.containsOwn s d.name = false ∧ signature d = .ok sig ∧
        declareMethods s ds ⟨st.scopes.insert s d.name sig.toTy, st.trace⟩ = .ok rest st' ∧
        sigs = sig :: rest := by
  have hstep : declareMethods s (d :: ds) st =
      if st.scopes.containsOwn s d.name then .error (.memberAlreadyDefined d.name) st
      else (do
        let sig ← MonadExcept.ofExcept (signature d)
        define s d.name sig.toTy
        return sig :: (← declareMethods s ds) : AnalyzeM (List Signature)) st := by
    show (if st.scopes.containsOwn s d.name then _ else _ : AnalyzeM (List Signature)) st = _
    split <;> rfl
  rw [hstep]
  cases hn : st.scopes.containsOwn s d.name with
  | true => simp
  | false =>
    simp only [Bool.false_eq_true, if_false, bind_eq_ok, ofExcept_eq_ok, define_eq_ok, pure_eq_ok,
      true_and]
    constructor
    · rintro ⟨sig, _, ⟨hsig, rfl⟩, _, _, ⟨-, rfl⟩, rest, _, hrest, rfl, rfl⟩
      exact ⟨sig, rest, hsig, hrest, rfl⟩
    · rintro ⟨sig, rest, hsig, hrest, rfl⟩
      exact ⟨sig, st, ⟨hsig, rfl⟩, (), _, ⟨hn, rfl⟩, rest, st', hrest, rfl, rfl⟩

theorem declareMethods_inv {d : DefDecl} {ds : List DefDecl} {sigs : List Signature}
    (h : declareMethods s (d :: ds) st = .ok sigs st') :
    ∃ sig rest st₁, st.scopes.containsOwn s d.name = false ∧ signature d = .ok sig ∧
      st₁.scopes = st.scopes.insert s d.name sig.toTy ∧
      declareMethods s ds st₁ = .ok rest st' ∧ sigs = sig :: rest := by
  obtain ⟨sig, rest, hn, hsig, hrest, rfl⟩ := declareMethods_cons_eq_ok.1 h
  exact ⟨sig, rest, _, hn, hsig, rfl, hrest, rfl⟩

section Statements

variable {returns : Option Ty} {ts : Typed.Stmt Ty}

theorem letStmt_inv {decl : LetDecl} (h : analyzeStmt s returns (.letStmt decl) st = .ok ts st') :
    ∃ d, analyzeLet s decl st = .ok d st' ∧ ts = .letStmt d := by
  simp only [analyzeStmt, bind_eq_ok, pure_eq_ok] at h
  obtain ⟨d, _, hd, rfl, rfl⟩ := h
  exact ⟨d, hd, rfl⟩

theorem defStmt_inv {decl : DefDecl} (h : analyzeStmt s returns (.defStmt decl) st = .ok ts st') :
    ∃ sig d st₁, st.scopes.containsOwn s decl.name = false ∧ signature decl = .ok sig ∧
      st₁.scopes = st.scopes.insert s decl.name sig.toTy ∧
      analyzeDef s decl sig st₁ = .ok d st' ∧ ts = .defStmt d := by
  simp only [analyzeStmt, bind_eq_ok, declareFunction_eq_ok, pure_eq_ok] at h
  obtain ⟨sig, _, ⟨hn, hsig, rfl⟩, d, _, hd, rfl, rfl⟩ := h
  exact ⟨sig, d, _, hn, hsig, rfl, hd, rfl⟩

theorem ifStmt_inv {condition : Expr} {thenBody elseBody : List Stmt}
    (h : analyzeStmt s returns (.ifStmt condition thenBody elseBody) st = .ok ts st') :
    ∃ c a b st₁ st₂ st₃ st₄, analyzeExpr s condition st = .ok c st₁ ∧
      c.type.equiv st₁.scopes (.prim .boolean) = true ∧
      st₂.scopes = st₁.scopes.addChild s ∅ ∧
      analyzeBlock st₁.scopes.size returns thenBody st₂ = .ok a st₃ ∧
      st₄.scopes = st₃.scopes.addChild s ∅ ∧
      analyzeBlock st₃.scopes.size returns elseBody st₄ = .ok b st' ∧ ts = .ifStmt c a b := by
  simp only [analyzeStmt, bind_eq_ok, requireBoolean_eq_ok, openChild_eq_ok, pure_eq_ok] at h
  obtain ⟨c, st₁, hc, _, _, ⟨hb, rfl⟩, _, _, ⟨rfl, rfl⟩, a, st₃, ha, _, _, ⟨rfl, rfl⟩, b, _, hb',
    rfl, rfl⟩ := h
  exact ⟨c, a, b, _, _, st₃, _, hc, hb, rfl, ha, rfl, hb', rfl⟩

theorem forStmt_inv {iterable : Expr} {body : List Stmt}
    (h : analyzeStmt s returns (.forStmt name iterable body) st = .ok ts st') :
    ∃ it b st₁ st₂, analyzeExpr s iterable st = .ok it st₁ ∧
      it.type.isSubtype st₁.scopes (.prim .iterable) = true ∧
      st₂.scopes = st₁.scopes.addChild s (Bindings.singleton name (.prim .integer)) ∧
      analyzeBlock st₁.scopes.size returns body st₂ = .ok b st' ∧
      ts = .forStmt name (.prim .integer) it b := by
  simp only [analyzeStmt, bind_eq_ok, requireSubtype_eq_ok, openChild_eq_ok, pure_eq_ok] at h
  obtain ⟨it, st₁, hit, _, _, ⟨hs, rfl⟩, _, _, ⟨rfl, rfl⟩, b, _, hb, rfl, rfl⟩ := h
  exact ⟨it, b, _, _, hit, hs, rfl, hb, rfl⟩

theorem returnStmt_inv {value : Option Expr}
    (h : analyzeStmt s returns (.returnStmt value) st = .ok ts st') :
    ∃ expected tvalue, returns = some expected ∧ analyzeOption s value st = .ok tvalue st' ∧
      ((tvalue.map Typed.Expr.type).getD (.prim .nil)).isSubtype st'.scopes expected = true ∧
      ts = .returnStmt tvalue := by
  cases returns with
  | none => exact (throw_eq_ok.1 h).elim
  | some expected =>
    simp only [analyzeStmt, bind_eq_ok, requireSubtype_eq_ok, pure_eq_ok] at h
    obtain ⟨tvalue, _, hv, _, _, ⟨hs, rfl⟩, rfl, rfl⟩ := h
    exact ⟨expected, tvalue, rfl, hv, hs, rfl⟩

theorem exprStmt_inv {e : Expr} (h : analyzeStmt s returns (.exprStmt e) st = .ok ts st') :
    ∃ t, analyzeExpr s e st = .ok t st' ∧ ts = .exprStmt t := by
  simp only [analyzeStmt, bind_eq_ok, pure_eq_ok] at h
  obtain ⟨t, _, ht, rfl, rfl⟩ := h
  exact ⟨t, ht, rfl⟩

theorem assignVar_inv {value : Expr}
    (h : analyzeStmt s returns (.assignStmt (.var name) value) st = .ok ts st') :
    ∃ t v, st.scopes.lookup s name = some t ∧ analyzeExpr s value st = .ok v st' ∧
      v.type.isSubtype st'.scopes t = true ∧ ts = .assignVar name t v := by
  simp only [analyzeStmt, bind_eq_ok, lookup_eq_ok] at h
  obtain ⟨_, st, ⟨rfl, rfl⟩, h⟩ := h
  cases hl : st.scopes.lookup s name with
  | none => simp [hl, throw_eq_ok] at h
  | some t =>
    simp only [hl, bind_eq_ok, requireSubtype_eq_ok, pure_eq_ok] at h
    obtain ⟨v, _, hv, _, _, ⟨hs, rfl⟩, rfl, rfl⟩ := h
    exact ⟨t, v, rfl, hv, hs, rfl⟩

theorem assignProperty_inv {receiver value : Expr}
    (h : analyzeStmt s returns (.assignStmt (.property receiver name) value) st = .ok ts st') :
    ∃ object members t v st₁, analyzeExpr s receiver st = .ok object st₁ ∧
      object.type = .object members ∧ st₁.scopes.lookupOwn members name = some t ∧
      (∀ params result, t ≠ .fn params result) ∧ analyzeExpr s value st₁ = .ok v st' ∧
      v.type.isSubtype st'.scopes t = true ∧ ts = .assignProperty object name t v := by
  simp only [analyzeStmt, bind_eq_ok, memberType_eq_ok] at h
  obtain ⟨object, st₁, ho, t, _, ⟨members, hm, ht, rfl⟩, h⟩ := h
  cases t with
  | fn params result =>
    exfalso
    obtain ⟨_, _, h, -⟩ := bind_eq_ok.1 h
    exact throw_eq_ok.1 h
  | _ =>
    simp only [bind_eq_ok, requireSubtype_eq_ok, pure_eq_ok] at h
    obtain ⟨v, _, hv, _, _, ⟨hs, rfl⟩, rfl, rfl⟩ := h
    exact ⟨object, members, _, v, _, ho, hm, ht, nofun, hv, hs, rfl⟩

theorem misplacedStmt_inv {kind : NodeKind}
    (h : analyzeStmt s returns (.misplaced kind) st = .ok ts st') : False := throw_eq_ok.1 h

end Statements

end ObjectLang.Analysis
