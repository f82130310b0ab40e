import ObjectLang.Proofs.Analysis.Frame
import ObjectLang.Proofs.Analysis.Signature
import ObjectLang.Proofs.Misuse.Steps

/-!
Analysis does not misuse a scope. Names are checked before they are defined, and what is looked at in
between gives no name to the scopes that are there before it; the parameters of a function are checked
against each other with its signature.
-/

namespace ObjectLang.Analysis

open Forest

variable {α β : Type} {s t members : ScopeId} {name : String} {type : Ty} {x : AnalyzeM α}
  {f : α → AnalyzeM β} {I J : State → Prop} {e : AnalysisError}

/-- An error that is not the misuse of a scope. -/
def Innocent (e : AnalysisError) : Prop := e.kind ≠ .scope

/-- The scope is there. -/
def Has (s : ScopeId) (st : State) : Prop := s < st.scopes.size

/-- The scope is there and does not have the name. -/
def Fresh (s : ScopeId) (name : String) (st : State) : Prop :=
  Has s st ∧ name ∉ st.scopes.names s

/-- A run that does not misuse a scope. -/
abbrev Proper (s : ScopeId) (x : AnalyzeM α) : Prop := Leads (Has s) (Has s) Innocent x

/-- A step that leaves all scopes alone and does not misuse any. -/
def Quiet (x : AnalyzeM α) : Prop := ∀ st, Ends (fun _ st' => st'.scopes = st.scopes) Innocent (x st)

theorem leads_throw (h : e.kind ≠ .scope) : Leads I J Innocent (throw e : AnalyzeM α) := .throw h

theorem leads_quiet {P : TypeScopes → Prop} (hx : Quiet x) :
    Leads (fun st => P st.scopes) (fun st => P st.scopes) Innocent x := by
  intro st hP
  apply (hx st).mono
  intro _ st' _ hst
  rwa [hst]

theorem proper_quiet (hx : Quiet x) : Proper s x := leads_quiet (P := fun f => s < f.size) hx

theorem fresh_quiet (hx : Quiet x) : Leads (Fresh s name) (Fresh s name) Innocent x :=
  leads_quiet (P := fun f => s < f.size ∧ name ∉ f.names s) hx

section Reading

theorem Quiet.pure (a : α) : Quiet (pure a : AnalyzeM α) := fun _ => rfl

theorem Quiet.throw (h : e.kind ≠ .scope) : Quiet (throw e : AnalyzeM α) := fun _ => h

theorem Quiet.bind (hx : Quiet x) (hf : ∀ a, Quiet (f a)) : Quiet (x >>= f) := by
  intro st
  apply (hx st).bind
  intro a st' _ hst
  rw [← hst]
  exact hf a st'

theorem quiet_report (event : Event) : Quiet (report event) := fun _ => rfl

theorem quiet_lookup (s : ScopeId) (name : String) : Quiet (lookup s name) := fun _ => rfl

theorem quiet_sameType (t u : Ty) : Quiet (sameType t u) := fun _ => rfl

theorem quiet_ofExcept {r : Except AnalysisError α} (h : ∀ e, r = .error e → e.kind ≠ .scope) :
    Quiet (MonadExcept.ofExcept r : AnalyzeM α) := by
  cases r with
  | ok a => exact .pure a
  | error e => exact .throw (h e rfl)

theorem quiet_requireSubtype (t u : Ty) : Quiet (requireSubtype t u) := by
  intro st
  rw [requireSubtype_apply]
  split
  · rfl
  · nofun

theorem quiet_requireBoolean (t : Ty) : Quiet (requireBoolean t) := by
  intro st
  rw [requireBoolean_apply]
  split
  · rfl
  · nofun

theorem quiet_requireArity (name : String) (expected given : Nat) :
    Quiet (requireArity name expected given) := by
  intro st
  rw [requireArity_apply]
  split
  · rfl
  · nofun

theorem quiet_memberType (t : Ty) (name : String) : Quiet (memberType t name) := by
  cases t with
  | object members =>
    intro st
    rw [memberType_apply]
    split
    · rfl
    · intro h
      cases h
  | _ =>
    refine .throw fun h => ?_
    cases h

theorem quiet_calleeType (name : String) (t : Ty) : Quiet (calleeType name t) := by
  cases t with
  | fn params returns => exact .pure _
  | _ => exact .throw nofun

theorem quiet_requireObjectName (object : Option String) : Quiet (requireObjectName object) := by
  cases object with
  | none => exact .pure _
  | some word =>
    show Quiet (if (Prim.ofName? word).isSome = true then _ else _)
    split
    · exact .throw nofun
    · exact .pure _

theorem quiet_bothNumeric (t u : Ty) : Quiet (bothNumeric t u) := by
  apply (quiet_sameType _ _).bind
  intro b
  cases b
  · apply (quiet_sameType _ _).bind
    intro b
    cases b
    · exact .pure _
    · exact quiet_sameType _ _
  · exact quiet_sameType _ _

theorem quiet_binaryType (op : Operator) (t u : Ty) : Quiet (binaryType op t u) := by
  cases op with
  | and | or | eq | ne =>
    exact (quiet_requireSubtype _ _).bind fun _ => (quiet_requireSubtype _ _).bind fun _ => .pure _
  | add =>
    apply (quiet_sameType _ _).bind
    intro b
    cases b
    · apply (quiet_sameType _ _).bind
      intro b
      cases b
      · apply (quiet_bothNumeric t u).bind
        intro b
        cases b
        · exact .throw nofun
        · exact .pure _
      · exact .pure _
    · exact .pure _
  | sub | mul | div =>
    apply (quiet_bothNumeric t u).bind
    intro b
    cases b
    · exact .throw nofun
    · exact .pure _
  | lt | le | gt | ge =>
    apply (quiet_requireSubtype _ _).bind
    intro _
    apply (quiet_requireSubtype _ _).bind
    intro _
    apply (quiet_sameType _ _).bind
    intro b
    cases b
    · exact .throw nofun
    · exact .pure _

end Reading

section Signatures

theorem innocent_resolve {word : String} (h : resolve word = .error e) : e.kind ≠ .scope := by
  unfold resolve at h
  split at h <;> cases h
  nofun

theorem innocent_resolveOr {word : Option String} (h : resolveOr word = .error e) :
    e.kind ≠ .scope := by
  cases word with
  | none => cases h
  | some word => exact innocent_resolve h

theorem innocent_literalType {value : Literal} (h : literalType value = .error e) :
    e.kind ≠ .scope := by
  cases value <;> cases h <;> nofun

theorem innocent_paramTypes {function : String} {seen params : List String}
    {annotations : List (Option String)}
    (h : paramTypes function seen params annotations = .error e) : e.kind ≠ .scope := by
  induction params generalizing seen annotations with
  | nil => cases h
  | cons param params ih =>
    unfold paramTypes at h
    split at h
    · cases h
      intro hk
      cases hk
    · rcases except_bind_error h with h | ⟨_, _, h⟩
      · exact innocent_resolveOr h
      · rcases except_bind_error h with h | ⟨_, _, h⟩
        · exact ih h
        · cases h

theorem innocent_signature {d : DefDecl} (h : signature d = .error e) : e.kind ≠ .scope := by
  obtain ⟨name, params, annotations, returnType, body⟩ := d
  rcases except_bind_error h with h | ⟨_, _, h⟩
  · exact innocent_paramTypes h
  · rcases except_bind_error h with h | ⟨_, _, h⟩
    · exact innocent_resolveOr h
    · cases h

theorem quiet_signature (d : DefDecl) :
    Quiet (MonadExcept.ofExcept (signature d) : AnalyzeM Signature) :=
  quiet_ofExcept fun _ => innocent_signature

theorem quiet_resolve (typeName : Option String) : Quiet
    (typeName.mapM fun word => MonadExcept.ofExcept (resolve word) : AnalyzeM (Option Prim)) := by
  cases typeName with
  | none => exact .pure _
  | some word => exact (quiet_ofExcept fun _ => innocent_resolve).bind fun _ => .pure _

end Signatures

section Scopes

/-- A scope that is opened later does not take the place of one that is there. -/
theorem proper_openChild {own : Bindings Ty} {k : ScopeId → AnalyzeM α}
    (hk : ∀ inner, Proper inner (k inner)) : Proper s (openChild t own >>= k) := by
  intro st hs
  have hs : s < st.scopes.size := hs
  apply (hk st.scopes.size { st with scopes := st.scopes.addChild t own } (by simp [Has])).mono
  exact fun _ _ _ => Nat.lt_trans hs

theorem proper_openRoot {k : ScopeId → AnalyzeM α} (hk : ∀ inner, Proper inner (k inner)) :
    Proper s (openRoot >>= k) := by
  intro st hs
  have hs : s < st.scopes.size := hs
  apply (hk st.scopes.size { st with scopes := st.scopes.addRoot ∅ } (by simp [Has])).mono
  exact fun _ _ _ => Nat.lt_trans hs

theorem leads_requireFresh : Leads (Has s) (Fresh s name) Innocent (requireFresh s name) := by
  intro st hs
  rw [requireFresh_apply]
  split
  · nofun
  · next hown => exact ⟨hs, fun hn => hown (containsOwn_iff.2 hn)⟩

theorem leads_define : Leads (Fresh s name) (Has s) Innocent (define s name type) := by
  rintro st ⟨hs, hn⟩
  rw [define_apply, if_neg fun hown => hn (containsOwn_iff.1 hown)]
  show s < (st.scopes.insert s name type).size
  rwa [size_insert]

/-- What is looked at meanwhile gives the scope no name. -/
theorem fresh_stays (hx : Proper s x) (hk : Keeps SameBindings x) :
    Leads (Fresh s name) (Fresh s name) Innocent x := by
  refine hx.and_keeps hk fun st st' hst hs hn => ?_
  have hst : BindingsKept st.scopes st'.scopes := hst
  have hnames : st'.scopes.names s = st.scopes.names s := hst.names.view_eq s hs
  rwa [hnames]

/-- The check that a declaration makes by itself, before it goes on. -/
theorem proper_unlessOwn {rest : AnalyzeM α} (he : e.kind ≠ .scope)
    (hrest : Leads (Fresh s name) (Has s) Innocent rest) :
    Proper s (do
      if (← get).scopes.containsOwn s name then throw e
      rest) := by
  intro st hs
  show Ends _ _ ((if st.scopes.containsOwn s name then throw e >>= fun _ => rest else rest) st)
  split
  · exact he
  · next hown => exact hrest st ⟨hs, fun hn => hown (containsOwn_iff.2 hn)⟩

theorem proper_declareMethods (ds : List DefDecl) : Proper members (declareMethods members ds) := by
  induction ds with
  | nil => exact .pure _
  | cons d ds ih =>
    refine proper_unlessOwn ?_ ?_
    · nofun
    · apply (fresh_quiet (quiet_signature d)).bind
      intro sig
      exact leads_define.bind fun _ => ih.bind fun _ => .pure _

theorem proper_declareSelf (members : ScopeId) : Proper members (declareSelf members) :=
  proper_unlessOwn nofun leads_define

theorem proper_declareFunction (s : ScopeId) (d : DefDecl) : Proper s (declareFunction s d) := by
  apply leads_requireFresh.bind
  intro _
  apply (fresh_quiet (quiet_signature d)).bind
  intro sig
  apply leads_define.bind
  intro _
  exact (proper_quiet (quiet_report _)).bind fun _ => .pure _

end Scopes

mutual

theorem proper_analyzeExpr (s : ScopeId) (e : Expr) : Proper s (analyzeExpr s e) := by
  cases e with
  | literal value =>
    exact (proper_quiet (quiet_ofExcept fun _ => innocent_literalType)).bind fun _ => .pure _
  | group inner => exact (proper_analyzeExpr s inner).bind fun _ => .pure _
  | binary symbol left right =>
    apply (proper_analyzeExpr s left).bind
    intro _
    apply (proper_analyzeExpr s right).bind
    intro _
    split
    · exact (proper_quiet (quiet_binaryType _ _ _)).bind fun _ => .pure _
    · exact leads_throw nofun
  | var name =>
    apply (proper_quiet (quiet_lookup s name)).bind
    intro t
    cases t
    · exact leads_throw nofun
    · exact .pure _
  | property receiver name =>
    apply (proper_analyzeExpr s receiver).bind
    intro _
    exact (proper_quiet (quiet_memberType _ name)).bind fun _ => .pure _
  | call name args =>
    apply (proper_quiet (quiet_lookup s name)).bind
    intro t
    cases t with
    | none => exact leads_throw nofun
    | some t =>
      apply (proper_quiet (quiet_calleeType name t)).bind
      intro callee
      apply (proper_quiet (quiet_requireArity name _ _)).bind
      intro _
      exact (proper_analyzeArgs s args callee.1).bind fun _ => .pure _
  | methodCall receiver name args =>
    apply (proper_analyzeExpr s receiver).bind
    intro _
    apply (proper_quiet (quiet_memberType _ name)).bind
    intro t
    apply (proper_quiet (quiet_calleeType name t)).bind
    intro callee
    apply (proper_quiet (quiet_requireArity name _ _)).bind
    intro _
    exact (proper_analyzeArgs s args callee.1).bind fun _ => .pure _
  | object name fields methods =>
    apply (proper_quiet (quiet_requireObjectName name)).bind
    intro _
    apply proper_openRoot
    intro members
    apply (proper_quiet (quiet_report _)).bind
    intro _
    apply (proper_analyzeFields members fields).bind
    intro _
    apply (proper_declareMethods methods).bind
    intro signatures
    apply (proper_declareSelf members).bind
    intro _
    exact (proper_analyzeMethods members methods signatures).bind fun _ => .pure _
  | misplaced kind => exact leads_throw nofun

theorem proper_analyzeArgs (s : ScopeId) (es : List Expr) (params : List Ty) :
    Proper s (analyzeArgs s es params) := by
  match es, params with
  | [], _ => exact .pure _
  | _ :: _, [] => exact .pure _
  | e :: es, param :: params =>
    apply (proper_analyzeExpr s e).bind
    intro _
    apply (proper_quiet (quiet_requireSubtype _ param)).bind
    intro _
    exact (proper_analyzeArgs s es params).bind fun _ => .pure _

theorem proper_analyzeOption (s : ScopeId) (value : Option Expr) :
    Proper s (analyzeOption s value) := by
  match value with
  | none => exact .pure _
  | some e => exact (proper_analyzeExpr s e).bind fun _ => .pure _

theorem proper_analyzeLet (s : ScopeId) (d : LetDecl) : Proper s (analyzeLet s d) := by
  match d with
  | .mk name typeName value =>
    apply leads_requireFresh.bind
    intro _
    apply (fresh_quiet (quiet_resolve typeName)).bind
    intro declared
    apply (fresh_stays (proper_analyzeOption s value) (keeps_analyzeOption s value)).bind
    intro value
    cases value
    · exact leads_define.bind fun _ => .pure _
    · apply (fresh_quiet (quiet_requireSubtype _ _)).bind
      intro _
      exact leads_define.bind fun _ => .pure _

theorem proper_analyzeFields (members : ScopeId) (ds : List LetDecl) :
    Proper members (analyzeFields members ds) := by
  match ds with
  | [] => exact .pure _
  | d :: ds =>
    exact (proper_analyzeLet members d).bind fun _ =>
      (proper_analyzeFields members ds).bind fun _ => .pure _

theorem proper_analyzeDef (s : ScopeId) (d : DefDecl) (sig : Signature) :
    Proper s (analyzeDef s d sig) := by
  match d with
  | .mk name params _ _ body =>
    exact proper_openChild fun inner => (proper_analyzeBlock inner _ body).bind fun _ => .pure _

theorem proper_analyzeMethods (members : ScopeId) (ds : List DefDecl) (sigs : List Signature) :
    Proper members (analyzeMethods members ds sigs) := by
  match ds, sigs with
  | [], _ => exact .pure _
  | _ :: _, [] => exact .pure _
  | d :: ds, sig :: sigs =>
    exact (proper_analyzeDef members d sig).bind fun _ =>
      (proper_analyzeMethods members ds sigs).bind fun _ => .pure _

theorem proper_analyzeStmt (s : ScopeId) (returns : Option Ty) (st : Stmt) :
    Proper s (analyzeStmt s returns st) := by
  cases st with
  | letStmt decl => exact (proper_analyzeLet s decl).bind fun _ => .pure _
  | defStmt decl =>
    apply (proper_declareFunction s decl).bind
    intro sig
    exact (proper_analyzeDef s decl sig).bind fun _ => .pure _
  | ifStmt condition thenBody elseBody =>
    apply (proper_analyzeExpr s condition).bind
    intro _
    apply (proper_quiet (quiet_requireBoolean _)).bind
    intro _
    apply proper_openChild
    intro inner
    apply (proper_analyzeBlock inner returns thenBody).bind
    intro _
    exact proper_openChild fun inner =>
      (proper_analyzeBlock inner returns elseBody).bind fun _ => .pure _
  | forStmt name iterable body =>
    apply (proper_analyzeExpr s iterable).bind
    intro _
    apply (proper_quiet (quiet_requireSubtype _ _)).bind
    intro _
    exact proper_openChild fun inner =>
      (proper_analyzeBlock inner returns body).bind fun _ => .pure _
  | returnStmt value =>
    cases returns with
    | none => exact leads_throw nofun
    | some returns =>
      apply (proper_analyzeOption s value).bind
      intro _
      exact (proper_quiet (quiet_requireSubtype _ _)).bind fun _ => .pure _
  | exprStmt e => exact (proper_analyzeExpr s e).bind fun _ => .pure _
  | assignStmt target value =>
    cases target with
    | var name =>
      apply (proper_quiet (quiet_lookup s name)).bind
      intro t
      cases t with
      | none => exact leads_throw nofun
      | some t =>
        apply (proper_analyzeExpr s value).bind
        intro _
        exact (proper_quiet (quiet_requireSubtype _ t)).bind fun _ => .pure _
    | property receiver name =>
      apply (proper_analyzeExpr s receiver).bind
      intro object
      apply (proper_quiet (quiet_memberType _ name)).bind
      intro t
      have hrest : Proper s (do
          let value ← analyzeExpr s value
          requireSubtype value.type t
          return Typed.Stmt.assignProperty object name t value) :=
        (proper_analyzeExpr s value).bind fun _ =>
          (proper_quiet (quiet_requireSubtype _ t)).bind fun _ => .pure _
      cases t with
      | fn params returns => exact Leads.bind (leads_throw nofun) fun _ => hrest
      | _ => exact hrest
    | _ => exact leads_throw nofun
  | misplaced kind => exact leads_throw nofun

theorem proper_analyzeBlock (s : ScopeId) (returns : Option Ty) (sts : List Stmt) :
    Proper s (analyzeBlock s returns sts) := by
  match sts with
  | [] => exact .pure _
  | st :: sts =>
    exact (proper_analyzeStmt s returns st).bind fun _ =>
      (proper_analyzeBlock s returns sts).bind fun _ => .pure _

end

theorem proper_analyze (s : ScopeId) (p : Program) : Proper s (analyze s p) := by
  cases p with
  | source stmts => exact (proper_analyzeBlock s none stmts).bind fun _ => .pure _
  | stmt stmt => exact (proper_analyzeStmt s none stmt).bind fun _ => .pure _
  | expr e => exact (proper_analyzeExpr s e).bind fun _ => .pure _

/-- Opening a scope with bindings is to open an empty one and to define the names one after another. -/
theorem openChild_eq_defines (parent : ScopeId) (own : Bindings Ty) :
    openChild parent own = (do
      let inner ← openChild parent ∅
      forM own.entries fun e => define inner e.1 e.2
      return inner) := by
  funext st
  have hdefine (f : TypeScopes) (s : ScopeId) (name : String) (t : Ty) (hn : name ∉ f.names s) :
      define s name t { st with scopes := f } = .ok () { st with scopes := f.insert s name t } := by
    rw [define_apply, if_neg fun hown => hn (containsOwn_iff.1 hown)]
  have hrun := forM_define hdefine st.scopes parent own ∅ rfl
  show _ = ((forM own.entries fun e => define st.scopes.size e.1 e.2) >>= fun _ =>
    pure st.scopes.size) { st with scopes := st.scopes.addChild parent ∅ }
  rw [bind_apply, hrun]
  rfl

/-- The scope of a body is opened as if its parameters were defined one after another. -/
def DefinesParams (d : DefDecl) (sig : Signature) : Prop :=
  ∀ parent, openChild parent (Bindings.ofList (d.params.zip (sig.params.map Ty.prim))) = (do
    let inner ← openChild parent ∅
    forM (d.params.zip (sig.params.map Ty.prim)) fun e => define inner e.1 e.2
    return inner)

theorem definesParams_of_signature {d : DefDecl} {sig : Signature} (h : signature d = .ok sig) :
    DefinesParams d sig := by
  intro parent
  rw [openChild_eq_defines, entries_params h]

end ObjectLang.Analysis
