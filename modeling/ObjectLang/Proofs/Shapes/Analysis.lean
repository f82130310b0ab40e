import ObjectLang.Proofs.Analysis.Frame
import ObjectLang.Proofs.Analysis.Signature
import ObjectLang.Proofs.Shapes.Watch

/-!
The members of object types. They are the fields and the methods of the literal in the order of their
declaration and then the object itself, and whatever is analysed after the literal leaves them as
they are.
-/

namespace ObjectLang.Analysis

open Forest Typed

variable {α β : Type} {s : ScopeId} {st st' : State} {members : ScopeId}

section Shape

/-- A field of an object type goes by the name of its declaration. -/
def FieldOf (d : LetDecl) (t : Typed.LetDecl Ty) : Prop := t.binding.1 = d.name

/-- A method of an object type goes by the name of its declaration and takes as many parameters. -/
def TypedMethodOf (d : DefDecl) (t : Typed.DefDecl Ty) : Prop :=
  ∃ params returns, t.binding = (d.name, .fn params returns) ∧ params.length = d.params.length

theorem analyzeFields_ok {ds : List LetDecl} {tds : List (Typed.LetDecl Ty)}
    (h : analyzeFields members ds st = .ok tds st') :
    List.Forall₂ FieldOf ds tds ∧
      AddsEntries members (tds.map LetDecl.binding) st.scopes st'.scopes := by
  induction ds generalizing tds st with
  | nil =>
    obtain ⟨rfl, rfl⟩ := pure_eq_ok.1 h
    exact ⟨.nil, (Kept.refl _ _).adds _⟩
  | cons d ds ih =>
    obtain ⟨t, ts, st₁, ht, hts, rfl⟩ := fields_inv h
    obtain ⟨hfields, hadds⟩ := ih hts
    have hlet := binds_analyzeLet members d st
    rw [ht] at hlet
    obtain ⟨name, typeName, value⟩ := d
    obtain ⟨declared, tvalue, type, st₂, -, -, -, -, -, -, -, rfl⟩ := let_inv ht
    exact ⟨.cons rfl hfields, Adds.trans hlet hadds⟩

/-- Analysing the bodies of methods gives their declared types back. -/
theorem analyzeMethods_ok {ds : List DefDecl} {sigs : List Signature}
    {tds : List (Typed.DefDecl Ty)} (hsigs : List.Forall₂ (fun d sig => signature d = .ok sig) ds sigs)
    (h : analyzeMethods members ds sigs st = .ok tds st') :
    List.Forall₂ TypedMethodOf ds tds ∧
      tds.map DefDecl.binding = List.zipWith (fun d sig => (d.name, sig.toTy)) ds sigs := by
  induction hsigs generalizing tds st with
  | nil =>
    obtain ⟨rfl, -⟩ := pure_eq_ok.1 h
    exact ⟨.nil, rfl⟩
  | @cons d sig ds sigs hsig _ ih =>
    obtain ⟨t, ts, st₁, ht, hts, rfl⟩ := methods_inv h
    obtain ⟨hmethods, hbindings⟩ := ih hts
    have hlength := (signature_ok hsig).2
    have htype := toTy_eq hsig
    obtain ⟨name, params, annotations, returnType, body⟩ := d
    obtain ⟨tbody, st₂, -, -, rfl⟩ := def_inv ht
    refine ⟨.cons ⟨_, _, rfl, ?_⟩ hmethods, ?_⟩
    · simp only [List.length_map, List.length_zip, DefDecl.params] at hlength ⊢
      omega
    · rw [List.map_cons, hbindings, List.zipWith_cons_cons, htype]
      rfl

/-- What an object type has for members when everything is declared and its methods have been
looked at. -/
theorem members_complete {Γ : TypeScopes} {st₀ st₁ st₂ st₃ : State} {fields : List LetDecl}
    {methods : List DefDecl} {tfields : List (Typed.LetDecl Ty)} {tmethods : List (Typed.DefDecl Ty)}
    {sigs : List Signature} (h₀ : st₀.scopes = Γ.addRoot ∅)
    (hf : analyzeFields Γ.size fields st₀ = .ok tfields st₁)
    (hd : declareMethods Γ.size methods st₁ = .ok sigs st₂)
    (hself : st₂.scopes.containsOwn Γ.size selfName = false)
    (h₃ : st₃.scopes = st₂.scopes.insert Γ.size selfName (.object Γ.size))
    (hm : analyzeMethods Γ.size methods sigs st₃ = .ok tmethods st') :
    List.Forall₂ FieldOf fields tfields ∧ List.Forall₂ TypedMethodOf methods tmethods ∧
      Γ.size < st'.scopes.size ∧
      (st'.scopes.own Γ.size).entries = Typed.members tfields tmethods (.object Γ.size) := by
  obtain ⟨hfields, haf⟩ := analyzeFields_ok hf
  obtain ⟨hsigs, had⟩ := declareMethods_ok hd
  obtain ⟨hmethods, hbindings⟩ := analyzeMethods_ok hsigs hm
  have has := addsEntries_insert (Ty.object Γ.size) (not_mem_names hself)
  rw [← h₃] at has
  have hadds := ((haf.trans had).trans has).trans_kept ((keeps_analyzeMethods _ _ _).of_ok hm)
  have hlt : Γ.size < st₀.scopes.size := by simp [h₀]
  refine ⟨hfields, hmethods, Nat.lt_of_lt_of_le hlt hadds.size_le, ?_⟩
  have hempty : (st₀.scopes.own Γ.size).entries = [] := by
    rw [h₀, own_addRoot, if_pos rfl]
    rfl
  rw [hadds.view_eq _ hlt, hempty, if_pos rfl, Typed.members, hbindings, List.nil_append]

theorem names_fields {ds : List LetDecl} {tds : List (Typed.LetDecl Ty)}
    (h : List.Forall₂ FieldOf ds tds) :
    (tds.map LetDecl.binding).map Prod.fst = ds.map LetDecl.name := by
  induction h with
  | nil => rfl
  | cons hd _ ih => rw [List.map_cons, List.map_cons, List.map_cons, ih, show _ = _ from hd]

theorem names_methods {ds : List DefDecl} {tds : List (Typed.DefDecl Ty)}
    (h : List.Forall₂ TypedMethodOf ds tds) :
    (tds.map DefDecl.binding).map Prod.fst = ds.map DefDecl.name := by
  induction h with
  | nil => rfl
  | cons hd _ ih =>
    obtain ⟨_, _, hbinding, -⟩ := hd
    rw [List.map_cons, List.map_cons, List.map_cons, ih, hbinding]

theorem names_members {fields : List LetDecl} {methods : List DefDecl}
    {tfields : List (Typed.LetDecl Ty)} {tmethods : List (Typed.DefDecl Ty)} {self : Ty}
    {Γ : TypeScopes} (hf : List.Forall₂ FieldOf fields tfields)
    (hm : List.Forall₂ TypedMethodOf methods tmethods)
    (h : (Γ.own members).entries = Typed.members tfields tmethods self) :
    Γ.names members = fields.map LetDecl.name ++ methods.map DefDecl.name ++ [selfName] := by
  rw [Forest.names, Bindings.names, h, Typed.members, List.map_append, List.map_append,
    names_fields hf, names_methods hm]
  rfl

end Shape

/-- A run keeps the objects that it completes as they are. -/
def Endures (s : ScopeId) (w : Watched α) : Prop :=
  ∀ st, s < st.scopes.size →
    Enduring [selfName] s st.scopes (w.sights st) (finalState (w.run st)).scopes

section Endures

variable {w : Watched α} {k : α → Watched β} {x : AnalyzeM α}

theorem Endures.pure (a : α) : Endures s (Pure.pure a : Watched α) := fun st _ => enduring_refl st.scopes

theorem Endures.bind (hw : Endures s w) (hk : ∀ a, Endures s (k a)) : Endures s (w >>= k) := by
  intro st hs
  have h := hw st hs
  show Enduring _ s st.scopes (w.sights st ++ _) _
  rw [run_bind, bind_apply]
  cases hr : w.run st with
  | ok a st₁ =>
    rw [hr] at h
    obtain ⟨_, hadds⟩ := h.adds
    exact h.append hs (hk a st₁ (Nat.lt_of_lt_of_le hs hadds.size_le))
  | error e st₁ =>
    rw [hr] at h
    rw [List.append_nil]
    exact h

theorem Endures.step (hx : Keeps (BindsTo s) x) : Endures s (Analysis.step x) := by
  intro st _
  obtain ⟨_, hadds⟩ := hx st
  exact enduring_step hadds.names

theorem endures_read (hx : Keeps SameScopes x) : Endures s (step x) :=
  .step (keeps_bindsTo (keeps_of_sameScopes hx) s)

/-- What is done in a new scope does not matter outside. -/
theorem endures_openChild {parent : ScopeId} {own : Bindings Ty} {k : ScopeId → Watched α}
    (hk : ∀ inner, Endures inner (k inner)) : Endures s (step (openChild parent own) >>= k) := by
  intro st _
  have hkept : NamesKept st.scopes (st.scopes.addChild parent own) := kept_addChild
  have hin := hk st.scopes.size { st with scopes := st.scopes.addChild parent own } (by simp)
  exact .scopes (hkept.adds s) (hin.inside hkept (Nat.le_refl _))

/-- An object that is made by the run before has all its members by then. -/
theorem Endures.complete {γ : Type} {members : α → ScopeId} {declared : List String} {g : α → γ}
    (hw : Endures s w) (hshaped : ∀ st a st', w.run st = .ok a st' →
      st.scopes.size ≤ members a ∧ st'.scopes.Shaped (members a) (declared ++ [selfName])) :
    Endures s (w >>= fun a => Analysis.complete (members a) declared >>= fun _ => Pure.pure (g a)) := by
  intro st hs
  have h := hw st hs
  show Enduring _ s st.scopes (w.sights st ++ _) _
  rw [run_bind, bind_apply]
  cases hr : w.run st with
  | ok a st₁ =>
    rw [hr] at h
    obtain ⟨ha, hshaped⟩ := hshaped st a st₁ hr
    exact h.complete ha hshaped
  | error e st₁ =>
    rw [hr] at h
    rw [List.append_nil]
    exact h

end Endures

section Members

variable {object : Option String} {fields : List LetDecl} {methods : List DefDecl}
  {f : ScopeId → Watched (List (Typed.LetDecl Ty))}
  {g : ScopeId → List Signature → Watched (List (Typed.DefDecl Ty))}

theorem endures_watchMembers (hf : ∀ members, Endures members (f members))
    (hg : ∀ members sigs, Endures members (g members sigs)) :
    Endures s (watchMembers object methods f g) := by
  have hbody (members : ScopeId) : Endures members (do
      step (report (.analyzingObject object))
      let typedFields ← f members
      let signatures ← step (declareMethods members methods)
      step (declareSelf members)
      let typedMethods ← g members signatures
      return (members, typedFields, typedMethods)) := by
    apply (endures_read (keeps_report _)).bind
    intro _
    apply (hf members).bind
    intro _
    apply (Endures.step (bindsTo_declareMethods members methods)).bind
    intro sigs
    apply (Endures.step (bindsTo_declareSelf members)).bind
    intro _
    exact (hg members sigs).bind fun _ => .pure _
  intro st _
  have hkept : NamesKept st.scopes (st.scopes.addRoot ∅) := kept_addRoot
  have hin := hbody st.scopes.size { st with scopes := st.scopes.addRoot ∅ } (by simp)
  exact .scopes (hkept.adds s) (hin.inside hkept (Nat.le_refl _))

/-- Members that are all there are those that are declared. -/
theorem shaped_watchMembers {members : ScopeId} {tfields : List (Typed.LetDecl Ty)}
    {tmethods : List (Typed.DefDecl Ty)}
    (h : (watchMembers object methods (fun members => watchFields members fields)
      fun members sigs => watchMethods members methods sigs).run st =
        .ok (members, tfields, tmethods) st') :
    members = st.scopes.size ∧ st'.scopes.Shaped members
      (fields.map LetDecl.name ++ methods.map DefDecl.name ++ [selfName]) := by
  simp only [watchMembers, run_bind, run_step, run_pure, run_watchFields, run_watchMethods,
    bind_eq_ok, openRoot_eq_ok, report_eq_ok, declareSelf_eq_ok, pure_eq_ok] at h
  obtain ⟨_, _, ⟨rfl, rfl⟩, _, _, rfl, _, st₁, hf, sigs, st₂, hd, _, _, ⟨hself, rfl⟩, _, _, hm, heq,
    rfl⟩ := h
  cases heq
  obtain ⟨hfields, hmethods, hlt, hown⟩ := members_complete rfl hf hd hself rfl hm
  exact ⟨rfl, hlt, names_members hfields hmethods hown⟩

end Members

mutual

theorem endures_watchExpr (s : ScopeId) (e : Expr) : Endures s (watchExpr s e) := by
  cases e with
  | literal value => exact (endures_read (keeps_ofExcept _)).bind fun _ => .pure _
  | group inner => exact (endures_watchExpr s inner).bind fun _ => .pure _
  | binary symbol left right =>
    apply (endures_watchExpr s left).bind
    intro _
    apply (endures_watchExpr s right).bind
    intro _
    split
    · exact (endures_read (keeps_binaryType _ _ _)).bind fun _ => .pure _
    · exact endures_read (.throw _)
  | var name =>
    apply (endures_read (keeps_lookup s name)).bind
    intro type
    cases type
    · exact endures_read (.throw _)
    · exact .pure _
  | property receiver name =>
    apply (endures_watchExpr s receiver).bind
    intro _
    exact (endures_read (keeps_memberType _ name)).bind fun _ => .pure _
  | call name args =>
    apply (endures_read (keeps_lookup s name)).bind
    intro type
    cases type with
    | none => exact endures_read (.throw _)
    | some type =>
      apply (endures_read (keeps_calleeType name type)).bind
      intro callee
      apply (endures_read (keeps_requireArity name _ _)).bind
      intro _
      exact (endures_watchArgs s args callee.1).bind fun _ => .pure _
  | methodCall receiver name args =>
    apply (endures_watchExpr s receiver).bind
    intro _
    apply (endures_read (keeps_memberType _ name)).bind
    intro type
    apply (endures_read (keeps_calleeType name type)).bind
    intro callee
    apply (endures_read (keeps_requireArity name _ _)).bind
    intro _
    exact (endures_watchArgs s args callee.1).bind fun _ => .pure _
  | object name fields methods =>
    apply (endures_read (keeps_requireObjectName name)).bind
    intro _
    refine Endures.complete (endures_watchMembers (fun members => endures_watchFields members fields)
      fun members sigs => endures_watchMethods members methods sigs) fun st a st' h => ?_
    obtain ⟨hmembers, hshaped⟩ := shaped_watchMembers h
    exact ⟨Nat.le_of_eq hmembers.symm, hshaped⟩
  | misplaced kind => exact endures_read (.throw _)

theorem endures_watchArgs (s : ScopeId) (es : List Expr) (params : List Ty) :
    Endures s (watchArgs s es params) := by
  match es, params with
  | [], _ => exact .pure _
  | _ :: _, [] => exact .pure _
  | e :: es, param :: params =>
    apply (endures_watchExpr s e).bind
    intro _
    apply (endures_read (keeps_requireSubtype _ param)).bind
    intro _
    exact (endures_watchArgs s es params).bind fun _ => .pure _

theorem endures_watchOption (s : ScopeId) (value : Option Expr) : Endures s (watchOption s value) := by
  match value with
  | none => exact .pure _
  | some e => exact (endures_watchExpr s e).bind fun _ => .pure _

theorem endures_watchLet (s : ScopeId) (d : LetDecl) : Endures s (watchLet s d) := by
  match d with
  | .mk name typeName value =>
    apply (endures_read (keeps_requireFresh s name)).bind
    intro _
    apply (endures_read (keeps_resolve typeName)).bind
    intro declared
    apply (endures_watchOption s value).bind
    intro value
    have hdefine (type : Ty) : Endures s (step (define s name type) >>= fun _ =>
        pure (Typed.LetDecl.mk name type value)) :=
      (Endures.step (bindsTo_define s name type)).bind fun _ => .pure _
    cases value
    · exact hdefine _
    · exact (endures_read (keeps_requireSubtype _ _)).bind fun _ => hdefine _

theorem endures_watchFields (members : ScopeId) (ds : List LetDecl) :
    Endures members (watchFields members ds) := by
  match ds with
  | [] => exact .pure _
  | d :: ds =>
    exact (endures_watchLet members d).bind fun _ =>
      (endures_watchFields members ds).bind fun _ => .pure _

theorem endures_watchDef (parent : ScopeId) (d : DefDecl) (sig : Signature) :
    Endures parent (watchDef parent d sig) := by
  match d with
  | .mk name params _ _ body =>
    exact endures_openChild fun inner => (endures_watchBlock inner _ body).bind fun _ => .pure _

theorem endures_watchMethods (members : ScopeId) (ds : List DefDecl) (sigs : List Signature) :
    Endures members (watchMethods members ds sigs) := by
  match ds, sigs with
  | [], _ => exact .pure _
  | _ :: _, [] => exact .pure _
  | d :: ds, sig :: sigs =>
    exact (endures_watchDef members d sig).bind fun _ =>
      (endures_watchMethods members ds sigs).bind fun _ => .pure _

theorem endures_watchStmt (s : ScopeId) (returns : Option Ty) (stmt : Stmt) :
    Endures s (watchStmt s returns stmt) := by
  cases stmt with
  | letStmt decl => exact (endures_watchLet s decl).bind fun _ => .pure _
  | defStmt decl =>
    apply (Endures.step (binds_declareFunction s decl).bindsTo).bind
    intro sig
    exact (endures_watchDef s decl sig).bind fun _ => .pure _
  | ifStmt condition thenBody elseBody =>
    apply (endures_watchExpr s condition).bind
    intro _
    apply (endures_read (keeps_requireBoolean _)).bind
    intro _
    apply endures_openChild
    intro inner
    apply (endures_watchBlock inner returns thenBody).bind
    intro _
    exact endures_openChild fun inner => (endures_watchBlock inner returns elseBody).bind fun _ => .pure _
  | forStmt name iterable body =>
    apply (endures_watchExpr s iterable).bind
    intro _
    apply (endures_read (keeps_requireSubtype _ _)).bind
    intro _
    exact endures_openChild fun inner => (endures_watchBlock inner returns body).bind fun _ => .pure _
  | returnStmt value =>
    cases returns with
    | none => exact endures_read (.throw _)
    | some returns =>
      apply (endures_watchOption s value).bind
      intro _
      exact (endures_read (keeps_requireSubtype _ _)).bind fun _ => .pure _
  | exprStmt e => exact (endures_watchExpr s e).bind fun _ => .pure _
  | assignStmt target value =>
    cases target with
    | var name =>
      apply (endures_read (keeps_lookup s name)).bind
      intro type
      cases type with
      | none => exact endures_read (.throw _)
      | some type =>
        apply (endures_watchExpr s value).bind
        intro _
        exact (endures_read (keeps_requireSubtype _ type)).bind fun _ => .pure _
    | property receiver name =>
      apply (endures_watchExpr s receiver).bind
      intro object
      apply (endures_read (keeps_memberType _ name)).bind
      intro type
      have hrest : Endures s (do
          let value ← watchExpr s value
          step (requireSubtype value.type type)
          return Typed.Stmt.assignProperty object name type value) :=
        (endures_watchExpr s value).bind fun _ =>
          (endures_read (keeps_requireSubtype _ type)).bind fun _ => .pure _
      cases type with
      | fn params returns => exact (endures_read (.throw _)).bind fun _ => hrest
      | _ => exact hrest
    | _ => exact endures_read (.throw _)
  | misplaced kind => exact endures_read (.throw _)

theorem endures_watchBlock (s : ScopeId) (returns : Option Ty) (stmts : List Stmt) :
    Endures s (watchBlock s returns stmts) := by
  match stmts with
  | [] => exact .pure _
  | stmt :: stmts =>
    exact (endures_watchStmt s returns stmt).bind fun _ =>
      (endures_watchBlock s returns stmts).bind fun _ => .pure _

end

end ObjectLang.Analysis
