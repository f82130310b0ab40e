import ObjectLang.Proofs.Typing.Soundness

/-!
Analysis that stops half way. Whatever has been bound by then, the object types that are found are
those from before and those of new scopes. So a scope that is open stays open, and the programs that
come after a rejected one can be analysed in it as well.
-/

namespace ObjectLang.Analysis

open Forest Typed

variable {α β : Type} {Γ : TypeScopes} {s : ScopeId} {st st₁ : State} {x : AnalyzeM α}
  {f : α → AnalyzeM β} {own : Bindings Ty} {returns : Option Ty}

/-- However a run ends, the object types that are found then are from `Γ`, or newer. -/
def Discovers (Γ : TypeScopes) (x : AnalyzeM α) (st : State) : Prop :=
  FindsNew Γ (finalState (x st)).scopes

theorem Discovers.of_ok {a : α} (hx : Discovers Γ x st) (h : x st = .ok a st₁) :
    FindsNew Γ st₁.scopes := by
  rwa [Discovers, h] at hx

theorem discovers_reading (hx : Keeps SameScopes x) : Discovers st.scopes x st := by
  have hsame : (finalState (x st)).scopes = st.scopes := hx st
  rw [Discovers, hsame]
  exact .refl _

theorem discovers_pure (a : α) : Discovers st.scopes (pure a) st := .refl _

theorem discovers_throw (e : AnalysisError) : Discovers st.scopes (throw e : AnalyzeM α) st :=
  .refl _

theorem Discovers.after (h : FindsNew Γ st.scopes) (hx : Discovers st.scopes x st) :
    Discovers Γ x st := h.trans hx

theorem Discovers.bind (hx : Discovers Γ x st)
    (hf : ∀ a st₁, x st = .ok a st₁ → FindsNew Γ st₁.scopes → Discovers Γ (f a) st₁) :
    Discovers Γ (x >>= f) st := by
  rw [Discovers, bind_apply]
  cases h : x st with
  | ok a st₁ => exact hf a st₁ h (hx.of_ok h)
  | error e st₁ => rwa [Discovers, h] at hx

/-- What comes next may find what is there by then. -/
theorem Discovers.next (hx : Discovers Γ x st)
    (hf : ∀ a st₁, x st = .ok a st₁ → Discovers st₁.scopes (f a) st₁) : Discovers Γ (x >>= f) st :=
  hx.bind fun a st₁ h hnew => (hf a st₁ h).after hnew

/-- A check that comes first leaves the scopes as they are. -/
theorem Discovers.read (hx : Keeps SameScopes x)
    (hf : ∀ a st₁, st₁.scopes = st.scopes → Discovers st₁.scopes (f a) st₁) :
    Discovers st.scopes (x >>= f) st :=
  (discovers_reading hx).next fun a st₁ h => hf a st₁ (hx.of_ok h)

/-- A check that comes last leaves the scopes as they are. -/
theorem Discovers.check (hx : Discovers Γ x st) (hf : ∀ a, Keeps SameScopes (f a)) :
    Discovers Γ (x >>= f) st :=
  hx.next fun a _ _ => discovers_reading (hf a)

theorem discovers_define {name : String} {t : Ty} (ho : Open st.scopes s)
    (ht : st.scopes.Knows t) : Discovers st.scopes (define s name t) st := by
  rw [Discovers, define_apply]
  split
  · exact .refl _
  · next h => exact (advances_insert ho (not_mem_names (by simpa using h)) ht).toFindsNew

theorem open_of_define {name : String} {t : Ty} {v : Unit} (ho : Open st.scopes s)
    (ht : st.scopes.Knows t) (h : define s name t st = .ok v st₁) : Open st₁.scopes s := by
  obtain ⟨hfresh, rfl⟩ := define_eq_ok.1 h
  have hn := not_mem_names hfresh
  exact ho.grow (addsEntries_insert _ hn) (advances_insert ho hn ht).toFindsNew

theorem discovers_declareMethods {ds : List DefDecl} (ho : Open st.scopes s) :
    Discovers st.scopes (declareMethods s ds) st := by
  induction ds generalizing st with
  | nil => exact discovers_pure _
  | cons d ds ih =>
    refine Discovers.read (fun _ => rfl) fun _ st₁ h₁ => ?_
    have hrest : Discovers st₁.scopes (do
        let sig ← MonadExcept.ofExcept (signature d)
        define s d.name sig.toTy
        return sig :: (← declareMethods s ds)) st₁ := by
      apply Discovers.read (keeps_ofExcept _)
      intro sig st₂ h₂
      have ho₂ : Open st₂.scopes s := h₂ ▸ h₁ ▸ ho
      have ht := knows_toTy st₂.scopes sig
      apply (discovers_define ho₂ ht).next
      intro _ st₃ h₃
      exact (ih (open_of_define ho₂ ht h₃)).check fun _ => .pure _
    split
    · exact (discovers_throw _).bind fun _ _ h => (throw_eq_ok.1 h).elim
    · exact hrest

theorem discovers_declareSelf (ho : Open st.scopes s) (h : Advances Γ st.scopes)
    (hlt : ∀ a, Γ.Refers a → a < Γ.size) (hs : Γ.size ≤ s) : Discovers Γ (declareSelf s) st := by
  rw [Discovers, declareSelf_apply]
  split
  · exact h.toFindsNew
  · next hfresh =>
    exact (advances_insertSelf ho h hlt hs (not_mem_names (by simpa using hfresh))).toFindsNew

theorem discovers_declareFunction {d : DefDecl} (ho : Open st.scopes s) :
    Discovers st.scopes (declareFunction s d) st := by
  apply Discovers.read (keeps_requireFresh s d.name)
  intro _ st₁ h₁
  apply Discovers.read (keeps_ofExcept _)
  intro sig st₂ h₂
  have ho₂ : Open st₂.scopes s := h₂ ▸ h₁ ▸ ho
  exact (discovers_define ho₂ (knows_toTy _ sig)).check fun _ =>
    (keeps_report _).bind fun _ => .pure _

theorem grounded_of_expr {e : Expr} {te : Typed.Expr Ty} (hg : Grounded st.scopes s)
    (h : analyzeExpr s e st = .ok te st₁) : Grounded st₁.scopes s :=
  (analyzeExpr_typed s e hg h).1.grounded hg (kept_expr h)

/-- A body is analysed in a scope of its own, and after it comes the rest. -/
theorem discovers_body {body : List Stmt} {k : List (Typed.Stmt Ty) → AnalyzeM α}
    (hg : Grounded st.scopes s) (hown : ∀ e ∈ own.entries, e.2.objects = [])
    (hr : ∀ r, returns = some r → ∃ p, r = .prim p)
    (hb : ∀ st₀, Open st₀.scopes st.scopes.size →
      Discovers st₀.scopes (analyzeBlock st.scopes.size returns body) st₀)
    (hk : ∀ tbody st₁, Grounded st₁.scopes s → Discovers st₁.scopes (k tbody) st₁) :
    Discovers st.scopes (do
      let inner ← openChild s own
      let tbody ← analyzeBlock inner returns body
      k tbody) st := by
  have hadv := advances_addChild hg hown
  have ho := open_addChild hg hown
  refine Discovers.bind hadv.toFindsNew fun inner st₀ h₀ hnew => ?_
  obtain ⟨rfl, rfl⟩ := openChild_eq_ok.1 h₀
  refine ((hb _ ho).after hnew).next fun tbody st₁ h₁ => hk tbody st₁ ?_
  have htyped := analyzeBlock_typed _ returns body (ho.accepts _) hr h₁
  exact hg.grow ((kept_body rfl h₁).adds s) (hnew.trans htyped.advances.toFindsNew)

mutual

theorem analyzeExpr_discovers (s : ScopeId) (e : Expr) {st : State} (hg : Grounded st.scopes s) :
    Discovers st.scopes (analyzeExpr s e) st := by
  cases e with
  | literal value => exact .read (keeps_ofExcept _) fun _ _ _ => discovers_pure _
  | group inner => exact (analyzeExpr_discovers s inner hg).check fun _ => .pure _
  | binary symbol left right =>
    apply (analyzeExpr_discovers s left hg).next
    intro l st₁ hl
    apply (analyzeExpr_discovers s right (grounded_of_expr hg hl)).check
    intro r
    split
    · exact (keeps_binaryType _ _ _).bind fun _ => .pure _
    · exact .throw _
  | var name =>
    apply Discovers.read (keeps_lookup s name)
    intro t _ _
    cases t with
    | none => exact discovers_throw _
    | some t => exact discovers_pure _
  | property receiver name =>
    exact (analyzeExpr_discovers s receiver hg).check fun _ =>
      (keeps_memberType _ name).bind fun _ => .pure _
  | call name args =>
    apply Discovers.read (keeps_lookup s name)
    intro t st₁ h₁
    cases t with
    | none => exact discovers_throw _
    | some t =>
      apply Discovers.read (keeps_calleeType name t)
      intro callee st₂ h₂
      apply Discovers.read (keeps_requireArity name _ _)
      intro _ st₃ h₃
      have hg₃ : Grounded st₃.scopes s := h₃ ▸ h₂ ▸ h₁ ▸ hg
      exact (analyzeArgs_discovers s args callee.1 hg₃).check fun _ => .pure _
  | methodCall receiver name args =>
    apply (analyzeExpr_discovers s receiver hg).next
    intro object st₁ h₁
    apply Discovers.read (keeps_memberType _ name)
    intro t st₂ h₂
    apply Discovers.read (keeps_calleeType name t)
    intro callee st₃ h₃
    apply Discovers.read (keeps_requireArity name _ _)
    intro _ st₄ h₄
    have hg₄ : Grounded st₄.scopes s := h₄ ▸ h₃ ▸ h₂ ▸ grounded_of_expr hg h₁
    exact (analyzeArgs_discovers s args callee.1 hg₄).check fun _ => .pure _
  | object name fields methods =>
    apply Discovers.read (keeps_requireObjectName name)
    intro _ st₀ h₀
    have hlt : ∀ a, st₀.scopes.Refers a → a < st₀.scopes.size := h₀ ▸ hg.refers_lt
    have hroot := advances_addRoot hlt
    refine Discovers.bind hroot.toFindsNew fun members st₁ h₁ hnew₁ => ?_
    obtain ⟨rfl, rfl⟩ := openRoot_eq_ok.1 h₁
    apply ((discovers_reading (keeps_report _)).after hnew₁).bind
    intro _ st₂ h₂ hnew₂
    have hst₂ : st₂.scopes = st₀.scopes.addRoot ∅ := (keeps_report _).of_ok h₂
    have ho₂ : Open st₂.scopes st₀.scopes.size := hst₂ ▸ open_addRoot hlt
    rw [← hst₂] at hroot
    apply ((analyzeFields_discovers _ fields ho₂).after hnew₂).bind
    intro tfields st₃ h₃ hnew₃
    obtain ⟨haf, hf⟩ := analyzeFields_typed _ fields ho₂ h₃
    have ho₃ := hf.opened ho₂ haf
    apply ((discovers_declareMethods ho₃).after hnew₃).bind
    intro sigs st₄ h₄ _
    have hadv := advances_declareMethods ho₃ h₄
    have ho₄ := ho₃.grow (declareMethods_ok h₄).2 hadv.toFindsNew
    refine (discovers_declareSelf ho₄ ((hroot.trans hf.advances).trans hadv) hlt
      (Nat.le_refl _)).next fun _ st₅ h₅ => ?_
    obtain ⟨hself, hst₅⟩ := declareSelf_eq_ok.1 h₅
    have hg₅ :=
      (members_declared hlt hst₂ haf hf.advances h₄ hself (congrArg State.scopes hst₅)).2.1
    exact (analyzeMethods_discovers _ methods sigs hg₅ (declareMethods_ok h₄).1).check
      fun _ => .pure _
  | misplaced kind => exact discovers_throw _

theorem analyzeArgs_discovers (s : ScopeId) (es : List Expr) (params : List Ty) {st : State}
    (hg : Grounded st.scopes s) : Discovers st.scopes (analyzeArgs s es params) st := by
  match es, params with
  | [], _ => exact discovers_pure _
  | _ :: _, [] => exact discovers_pure _
  | e :: es, param :: params =>
    apply (analyzeExpr_discovers s e hg).next
    intro te st₁ h₁
    apply Discovers.read (keeps_requireSubtype _ param)
    intro _ st₂ h₂
    have hg₂ : Grounded st₂.scopes s := h₂ ▸ grounded_of_expr hg h₁
    exact (analyzeArgs_discovers s es params hg₂).check fun _ => .pure _

theorem analyzeOption_discovers (s : ScopeId) (value : Option Expr) {st : State}
    (hg : Grounded st.scopes s) : Discovers st.scopes (analyzeOption s value) st := by
  match value with
  | none => exact discovers_pure _
  | some e => exact (analyzeExpr_discovers s e hg).check fun _ => .pure _

theorem analyzeLet_discovers (s : ScopeId) (d : LetDecl) {st : State} (ho : Open st.scopes s) :
    Discovers st.scopes (analyzeLet s d) st := by
  match d with
  | .mk name typeName value =>
    apply Discovers.read (keeps_requireFresh s name)
    intro _ st₁ h₁
    apply Discovers.read (keeps_resolve typeName)
    intro declared st₂ h₂
    have ho₂ : Open st₂.scopes s := h₂ ▸ h₁ ▸ ho
    apply (analyzeOption_discovers s value ho₂.toGrounded).next
    intro tvalue st₃ h₃
    obtain ⟨hv, hk⟩ := analyzeOption_typed s value ho₂.toGrounded h₃
    have ho₃ := hv.opened ho₂ ((kept_option h₃).adds s)
    cases tvalue with
    | none => exact (discovers_define ho₃ (knows_declared hk)).check fun _ => .pure _
    | some v =>
      apply Discovers.read (keeps_requireSubtype _ _)
      intro _ st₄ h₄
      rw [← h₄] at ho₃ hk
      exact (discovers_define ho₃ (knows_declared hk)).check fun _ => .pure _

theorem analyzeFields_discovers (s : ScopeId) (ds : List LetDecl) {st : State}
    (ho : Open st.scopes s) : Discovers st.scopes (analyzeFields s ds) st := by
  match ds with
  | [] => exact discovers_pure _
  | d :: ds =>
    apply (analyzeLet_discovers s d ho).next
    intro td st₁ h₁
    obtain ⟨had, hd⟩ := analyzeLet_typed s d ho h₁
    exact (analyzeFields_discovers s ds (hd.opened ho had)).check fun _ => .pure _

theorem analyzeDef_discovers (s : ScopeId) (d : DefDecl) (sig : Signature) {st : State}
    (hg : Grounded st.scopes s) (hsig : signature d = .ok sig) :
    Discovers st.scopes (analyzeDef s d sig) st := by
  match d with
  | .mk name params annotations returnType body =>
    exact discovers_body hg (objects_params hsig)
      (fun r hr => ⟨_, (Option.some.inj hr).symm⟩)
      (fun st₀ ho => analyzeBlock_discovers _ _ body (ho.accepts _)
        fun r hr => ⟨_, (Option.some.inj hr).symm⟩)
      fun _ _ _ => discovers_pure _

theorem analyzeMethods_discovers (s : ScopeId) (ds : List DefDecl) (sigs : List Signature)
    {st : State} (hg : Grounded st.scopes s)
    (hsigs : List.Forall₂ (fun d sig => signature d = .ok sig) ds sigs) :
    Discovers st.scopes (analyzeMethods s ds sigs) st := by
  match ds, sigs, hsigs with
  | [], [], _ => exact discovers_pure _
  | d :: ds, sig :: sigs, .cons hsig hsigs =>
    apply (analyzeDef_discovers s d sig hg hsig).next
    intro td st₁ h₁
    have hg₁ := (analyzeDef_typed s d sig hg hsig h₁).2.grounded hg (kept_def h₁)
    exact (analyzeMethods_discovers s ds sigs hg₁ hsigs).check fun _ => .pure _

theorem analyzeStmt_discovers (s : ScopeId) (returns : Option Ty) (stmt : Stmt) {st : State}
    (haccepts : Accepts st.scopes s stmt.declared) (hr : ∀ r, returns = some r → ∃ p, r = .prim p) :
    Discovers st.scopes (analyzeStmt s returns stmt) st := by
  have hg := haccepts.toGrounded
  cases stmt with
  | letStmt decl =>
    have ho := haccepts.isOpen (List.cons_ne_nil _ _)
    exact (analyzeLet_discovers s decl ho).check fun _ => .pure _
  | defStmt decl =>
    have ho := haccepts.isOpen (List.cons_ne_nil _ _)
    apply (discovers_declareFunction ho).next
    intro sig st₁ h₁
    obtain ⟨hfresh, hsig, rfl⟩ := declareFunction_eq_ok.1 h₁
    have hn := not_mem_names hfresh
    have hg₁ := hg.grow (addsEntries_insert _ hn)
      (advances_insert ho hn (knows_toTy _ sig)).toFindsNew
    exact (analyzeDef_discovers s decl sig hg₁ hsig).check fun _ => .pure _
  | ifStmt condition thenBody elseBody =>
    apply (analyzeExpr_discovers s condition hg).next
    intro c st₁ h₁
    apply Discovers.read (keeps_requireBoolean _)
    intro _ st₂ h₂
    have hg₂ : Grounded st₂.scopes s := h₂ ▸ grounded_of_expr hg h₁
    refine discovers_body hg₂ objects_empty hr
      (fun _ ho => analyzeBlock_discovers _ returns thenBody (ho.accepts _) hr) fun _ st₃ hg₃ => ?_
    exact discovers_body hg₃ objects_empty hr
      (fun _ ho => analyzeBlock_discovers _ returns elseBody (ho.accepts _) hr) fun _ _ _ =>
        discovers_pure _
  | forStmt name iterable body =>
    apply (analyzeExpr_discovers s iterable hg).next
    intro it st₁ h₁
    apply Discovers.read (keeps_requireSubtype _ _)
    intro _ st₂ h₂
    have hg₂ : Grounded st₂.scopes s := h₂ ▸ grounded_of_expr hg h₁
    exact discovers_body hg₂ (by simp [Bindings.singleton, Ty.objects]) hr
      (fun _ ho => analyzeBlock_discovers _ returns body (ho.accepts _) hr) fun _ _ _ => discovers_pure _
  | returnStmt value =>
    cases returns with
    | none => exact discovers_throw _
    | some expected =>
      exact (analyzeOption_discovers s value hg).check fun _ =>
        (keeps_requireSubtype _ _).bind fun _ => .pure _
  | exprStmt e => exact (analyzeExpr_discovers s e hg).check fun _ => .pure _
  | assignStmt target value =>
    cases target with
    | var name =>
      apply Discovers.read (keeps_lookup s name)
      intro t st₁ h₁
      cases t with
      | none => exact discovers_throw _
      | some t =>
        exact (analyzeExpr_discovers s value (h₁ ▸ hg)).check fun _ =>
          (keeps_requireSubtype _ t).bind fun _ => .pure _
    | property receiver name =>
      apply (analyzeExpr_discovers s receiver hg).next
      intro object st₁ h₁
      apply Discovers.read (keeps_memberType _ name)
      intro t st₂ h₂
      have hg₂ : Grounded st₂.scopes s := h₂ ▸ grounded_of_expr hg h₁
      have hrest : Discovers st₂.scopes (do
          let value ← analyzeExpr s value
          requireSubtype value.type t
          return Typed.Stmt.assignProperty object name t value) st₂ :=
        (analyzeExpr_discovers s value hg₂).check fun _ =>
          (keeps_requireSubtype _ t).bind fun _ => .pure _
      cases t with
      | fn params result => exact (discovers_throw _).bind fun _ _ h => (throw_eq_ok.1 h).elim
      | _ => exact hrest
    | _ => exact discovers_throw _
  | misplaced kind => exact discovers_throw _

theorem analyzeBlock_discovers (s : ScopeId) (returns : Option Ty) (stmts : List Stmt)
    {st : State} (haccepts : Accepts st.scopes s (stmts.flatMap Stmt.declared))
    (hr : ∀ r, returns = some r → ∃ p, r = .prim p) :
    Discovers st.scopes (analyzeBlock s returns stmts) st := by
  match stmts with
  | [] => exact discovers_pure _
  | stmt :: stmts =>
    rw [List.flatMap_cons, accepts_append] at haccepts
    apply (analyzeStmt_discovers s returns stmt haccepts.1 hr).next
    intro t st₁ h₁
    obtain ⟨hat, ht⟩ := analyzeStmt_typed s returns stmt haccepts.1 hr h₁
    exact (analyzeBlock_discovers s returns stmts (ht.accepts haccepts.2 hat) hr).check fun _ =>
      .pure _

end

/-- However the analysis of a program ends, new object types are those of new scopes. -/
theorem analyze_discovers (p : Program) (st : State) (hs : Accepts st.scopes s p.declared) :
    Discovers st.scopes (analyze s p) st := by
  cases p with
  | source stmts => exact (analyzeBlock_discovers s none stmts hs nofun).check fun _ => .pure _
  | stmt stmt => exact (analyzeStmt_discovers s none stmt hs nofun).check fun _ => .pure _
  | expr e => exact (analyzeExpr_discovers s e hs.toGrounded).check fun _ => .pure _

end ObjectLang.Analysis
