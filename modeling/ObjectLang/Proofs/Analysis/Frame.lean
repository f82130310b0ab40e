import ObjectLang.Proofs.Analysis.Steps
import ObjectLang.Proofs.Scope.Growth
import ObjectLang.Proofs.Scoping.Rules
import ObjectLang.Proofs.Typing.Rules

/-!
What analysis does to the scopes that are there before it. No binding is ever changed: a statement
binds what it declares in its own scope, and an expression binds nothing. This holds also when
analysis stops half way: then a variable that is being defined is not bound, and a function is bound
before its body is looked at.
-/

namespace ObjectLang.Analysis

open Forest

variable {α β : Type} {s : ScopeId} {x : AnalyzeM α} {f : α → AnalyzeM β}

/-- Two states have the same scopes; they may differ in what has been reported. -/
def SameScopes (st st' : State) : Prop := st'.scopes = st.scopes

/-- No scope has got a binding. -/
def SameBindings (st st' : State) : Prop := BindingsKept st.scopes st'.scopes

/-- No scope but `s` has got a binding, and no binding has changed. -/
def BindsTo (s : ScopeId) (st st' : State) : Prop :=
  ∃ added, AddsEntries s added st.scopes st'.scopes

/-- A run that succeeds has bound in `s` what its result says, and one that fails nothing. -/
def Binds (s : ScopeId) (added : α → List (String × Ty)) (x : AnalyzeM α) : Prop :=
  ∀ st, match x st with
    | .ok a st' => AddsEntries s (added a) st.scopes st'.scopes
    | .error _ st' => BindingsKept st.scopes st'.scopes

/-- What a statement binds in its scope: the variable of a `LET` that succeeds, and a function that
has a new name and a proper signature, whatever comes of its body. -/
def stmtBinds (s : ScopeId) (st : State) : Stmt → List (String × Ty)
  | .letStmt decl =>
    match analyzeLet s decl st with
    | .ok (.mk _ type _) _ => [(decl.name, type)]
    | .error .. => []
  | .defStmt decl =>
    if st.scopes.containsOwn s decl.name then []
    else
      match signature decl with
      | .ok sig => [(decl.name, sig.toTy)]
      | .error _ => []
  | _ => []

/-- What the statements of a block bind, up to the first that fails. -/
def blockBinds (s : ScopeId) (returns : Option Ty) (st : State) : List Stmt → List (String × Ty)
  | [] => []
  | stmt :: stmts => stmtBinds s st stmt ++
    match analyzeStmt s returns stmt st with
    | .ok _ st' => blockBinds s returns st' stmts
    | .error .. => []

/-- What a program binds in the scope that it is analysed in. -/
def programBinds (s : ScopeId) (st : State) : Program → List (String × Ty)
  | .source stmts => blockBinds s none st stmts
  | .stmt stmt => stmtBinds s st stmt
  | .expr _ => []

instance : IsPreorder State SameScopes where
  refl _ := rfl
  trans _ _ _ h h' := Eq.trans h' h

instance : IsPreorder State SameBindings where
  refl st := Kept.refl _ st.scopes
  trans _ _ _ := Kept.trans

instance : IsPreorder State (BindsTo s) where
  refl st := ⟨[], (Kept.refl _ st.scopes).adds s⟩
  trans := by
    rintro _ _ _ ⟨_, h⟩ ⟨_, h'⟩
    exact ⟨_, h.trans h'⟩

theorem SameScopes.sameBindings {st st' : State} (h : SameScopes st st') : SameBindings st st' := by
  unfold SameBindings
  rw [h]
  exact Kept.refl _ st.scopes

theorem SameBindings.bindsTo {st st' : State} (h : SameBindings st st') (s : ScopeId) :
    BindsTo s st st' :=
  ⟨[], Kept.adds h s⟩

theorem keeps_of_sameScopes (hx : Keeps SameScopes x) : Keeps SameBindings x :=
  hx.mono fun _ _ => SameScopes.sameBindings

theorem keeps_bindsTo (hx : Keeps SameBindings x) (s : ScopeId) : Keeps (BindsTo s) x :=
  hx.mono fun _ _ h => h.bindsTo s

theorem Binds.bindsTo {added : α → List (String × Ty)} (hx : Binds s added x) :
    Keeps (BindsTo s) x := by
  intro st
  have h := hx st
  cases hr : x st with
  | ok a st' =>
    rw [hr] at h
    exact ⟨_, h⟩
  | error e st' =>
    rw [hr] at h
    exact ⟨[], Kept.adds h s⟩

/-- Steps that bind nothing may come first. -/
theorem Binds.after {added : β → List (String × Ty)} (hx : Keeps SameBindings x)
    (hf : ∀ a, Binds s added (f a)) : Binds s added (x >>= f) := by
  intro st
  have h := hx st
  rw [bind_apply]
  cases hr : x st with
  | ok a st₁ =>
    rw [hr] at h
    have h' := hf a st₁
    dsimp only
    cases hr' : f a st₁ with
    | ok b st₂ =>
      rw [hr'] at h'
      exact Kept.trans_adds h h'
    | error e st₂ =>
      rw [hr'] at h'
      exact Kept.trans h h'
  | error e st₁ =>
    rw [hr] at h
    exact h

/-- Steps that neither fail nor bind anything may come last. -/
theorem Binds.next {added : α → List (String × Ty)} {more : β → List (String × Ty)}
    (hx : Binds s added x)
    (hf : ∀ a st, ∃ b st', f a st = .ok b st' ∧ st'.scopes = st.scopes ∧ more b = added a) :
    Binds s more (x >>= f) := by
  intro st
  have h := hx st
  rw [bind_apply]
  cases hr : x st with
  | ok a st₁ =>
    rw [hr] at h
    obtain ⟨b, st₂, hb, hscopes, hmore⟩ := hf a st₁
    dsimp only
    rw [hb]
    dsimp only
    rw [hscopes, hmore]
    exact h
  | error e st₁ =>
    rw [hr] at h
    exact h

theorem keeps_report (event : Event) : Keeps SameScopes (report event) := fun _ => rfl

theorem keeps_lookup (s : ScopeId) (name : String) : Keeps SameScopes (lookup s name) :=
  fun _ => rfl

theorem keeps_ofExcept (r : Except AnalysisError α) :
    Keeps SameScopes (MonadExcept.ofExcept r : AnalyzeM α) := by
  cases r
  · exact .throw _
  · exact .pure _

theorem keeps_resolve (typeName : Option String) : Keeps SameScopes
    (typeName.mapM fun word => MonadExcept.ofExcept (resolve word) : AnalyzeM (Option Prim)) := by
  cases typeName
  · exact .pure _
  · exact (keeps_ofExcept _).bind fun _ => .pure _

theorem keeps_requireFresh (s : ScopeId) (name : String) :
    Keeps SameScopes (requireFresh s name) := by
  intro st
  rw [requireFresh_apply]
  split <;> rfl

theorem keeps_sameType (t u : Ty) : Keeps SameScopes (sameType t u) := fun _ => rfl

theorem keeps_requireSubtype (t u : Ty) : Keeps SameScopes (requireSubtype t u) := by
  intro st
  rw [requireSubtype_apply]
  split <;> rfl

theorem keeps_requireBoolean (t : Ty) : Keeps SameScopes (requireBoolean t) := by
  intro st
  rw [requireBoolean_apply]
  split <;> rfl

theorem keeps_requireArity (name : String) (expected given : Nat) :
    Keeps SameScopes (requireArity name expected given) := by
  intro st
  rw [requireArity_apply]
  split <;> rfl

theorem keeps_memberType (t : Ty) (name : String) : Keeps SameScopes (memberType t name) := by
  cases t with
  | object members =>
    intro st
    rw [memberType_apply]
    split <;> rfl
  | _ => exact .throw _

theorem keeps_calleeType (name : String) (t : Ty) : Keeps SameScopes (calleeType name t) := by
  cases t with
  | fn params returns => exact .pure _
  | _ => exact .throw _

theorem keeps_requireObjectName (object : Option String) :
    Keeps SameScopes (requireObjectName object) := by
  cases object with
  | none => exact .pure _
  | some word =>
    show Keeps SameScopes (if (Prim.ofName? word).isSome = true then _ else _)
    split
    · exact .throw _
    · exact .pure _

theorem keeps_bothNumeric (t u : Ty) : Keeps SameScopes (bothNumeric t u) := by
  apply (keeps_sameType _ _).bind
  intro b
  cases b
  · apply (keeps_sameType _ _).bind
    intro b
    cases b
    · exact .pure _
    · exact keeps_sameType _ _
  · exact keeps_sameType _ _

theorem keeps_binaryType (op : Operator) (t u : Ty) : Keeps SameScopes (binaryType op t u) := by
  cases op with
  | and | or | eq | ne =>
    exact (keeps_requireSubtype _ _).bind fun _ => (keeps_requireSubtype _ _).bind fun _ => .pure _
  | add =>
    apply (keeps_sameType _ _).bind
    intro b
    cases b
    · apply (keeps_sameType _ _).bind
      intro b
      cases b
      · apply (keeps_bothNumeric t u).bind
        intro b
        cases b
        · exact .throw _
        · exact .pure _
      · exact .pure _
    · exact .pure _
  | sub | mul | div =>
    apply (keeps_bothNumeric t u).bind
    intro b
    cases b
    all_goals first | exact .throw _ | exact .pure _
  | lt | le | gt | ge =>
    apply (keeps_requireSubtype _ _).bind
    intro _
    apply (keeps_requireSubtype _ _).bind
    intro _
    apply (keeps_sameType _ _).bind
    intro b
    cases b
    all_goals first | exact .throw _ | exact .pure _

theorem binds_define (s : ScopeId) (name : String) (t : Ty) :
    Binds s (fun _ => [(name, t)]) (define s name t) := by
  intro st
  rw [define_apply]
  by_cases h : st.scopes.containsOwn s name = true
  · rw [if_pos h]
    exact Kept.refl _ st.scopes
  · rw [if_neg h]
    exact addsEntries_insert _ fun hn => h (containsOwn_iff.2 hn)

theorem bindsTo_define (s : ScopeId) (name : String) (t : Ty) :
    Keeps (BindsTo s) (define s name t) := (binds_define s name t).bindsTo

/-- Whatever is bound in a new scope, the scopes from before get nothing. -/
theorem keeps_openChild {own : Bindings Ty} {k : ScopeId → AnalyzeM α}
    (hk : ∀ inner, Keeps (BindsTo inner) (k inner)) :
    Keeps SameBindings (openChild s own >>= k) := by
  intro st
  obtain ⟨_, h⟩ := hk st.scopes.size { st with scopes := st.scopes.addChild s own }
  exact kept_addChild.trans_adds_new (Nat.le_refl _) h

theorem keeps_openRoot {k : ScopeId → AnalyzeM α}
    (hk : ∀ inner, Keeps (BindsTo inner) (k inner)) : Keeps SameBindings (openRoot >>= k) := by
  intro st
  obtain ⟨_, h⟩ := hk st.scopes.size { st with scopes := st.scopes.addRoot ∅ }
  exact kept_addRoot.trans_adds_new (Nat.le_refl _) h

theorem bindsTo_declareMethods (members : ScopeId) (ds : List DefDecl) :
    Keeps (BindsTo members) (declareMethods members ds) := by
  have hread {γ : Type} {y : AnalyzeM γ} (hy : Keeps SameScopes y) : Keeps (BindsTo members) y :=
    keeps_bindsTo (keeps_of_sameScopes hy) members
  induction ds with
  | nil => exact .pure _
  | cons d ds ih =>
    refine Keeps.bind (fun st => ⟨[], (Kept.refl _ st.scopes).adds members⟩) fun st => ?_
    have hrest : Keeps (BindsTo members) (do
        let sig ← MonadExcept.ofExcept (signature d)
        define members d.name sig.toTy
        return sig :: (← declareMethods members ds)) := by
      apply (hread (keeps_ofExcept _)).bind
      intro sig
      exact (bindsTo_define members d.name _).bind fun _ => ih.bind fun _ => .pure _
    split
    · exact .bind (.throw _) fun _ => hrest
    · exact hrest

theorem bindsTo_declareSelf (members : ScopeId) : Keeps (BindsTo members) (declareSelf members) := by
  refine Keeps.bind (fun st => ⟨[], (Kept.refl _ st.scopes).adds members⟩) fun st => ?_
  split
  · exact .bind (.throw _) fun _ => bindsTo_define members selfName _
  · exact bindsTo_define members selfName _

theorem binds_declareFunction (s : ScopeId) (d : DefDecl) :
    Binds s (fun sig => [(d.name, sig.toTy)]) (declareFunction s d) := by
  apply Binds.after (keeps_of_sameScopes (keeps_requireFresh s d.name))
  intro _
  apply Binds.after (keeps_of_sameScopes (keeps_ofExcept (signature d)))
  intro sig
  exact (binds_define s d.name sig.toTy).next fun _ st => ⟨sig, _, rfl, rfl, rfl⟩

/-- A declaration that fails is of no function that could be bound. -/
theorem stmtBinds_of_error {d : DefDecl} {st st' : State} {e : AnalysisError}
    (h : declareFunction s d st = .error e st') : stmtBinds s st (.defStmt d) = [] := by
  rw [stmtBinds]
  split
  · rfl
  · next hfresh =>
    split
    · next sig hsig =>
      have hok := declareFunction_eq_ok.2 ⟨by simpa using hfresh, hsig, rfl⟩
      rw [h] at hok
      cases hok
    · rfl

mutual

theorem keeps_analyzeExpr (s : ScopeId) (e : Expr) : Keeps SameBindings (analyzeExpr s e) := by
  have hread {γ : Type} {y : AnalyzeM γ} (hy : Keeps SameScopes y) : Keeps SameBindings y :=
    keeps_of_sameScopes hy
  cases e with
  | literal value => exact (hread (keeps_ofExcept _)).bind fun _ => .pure _
  | group inner => exact (keeps_analyzeExpr s inner).bind fun _ => .pure _
  | binary symbol left right =>
    apply (keeps_analyzeExpr s left).bind
    intro _
    apply (keeps_analyzeExpr s right).bind
    intro _
    split
    · exact (hread (keeps_binaryType _ _ _)).bind fun _ => .pure _
    · exact .throw _
  | var name =>
    apply (hread (keeps_lookup s name)).bind
    intro t
    cases t
    · exact .throw _
    · exact .pure _
  | property receiver name =>
    apply (keeps_analyzeExpr s receiver).bind
    intro _
    exact (hread (keeps_memberType _ name)).bind fun _ => .pure _
  | call name args =>
    apply (hread (keeps_lookup s name)).bind
    intro t
    cases t with
    | none => exact .throw _
    | some t =>
      apply (hread (keeps_calleeType name t)).bind
      intro callee
      apply (hread (keeps_requireArity name _ _)).bind
      intro _
      exact (keeps_analyzeArgs s args callee.1).bind fun _ => .pure _
  | methodCall receiver name args =>
    apply (keeps_analyzeExpr s receiver).bind
    intro _
    apply (hread (keeps_memberType _ name)).bind
    intro t
    apply (hread (keeps_calleeType name t)).bind
    intro callee
    apply (hread (keeps_requireArity name _ _)).bind
    intro _
    exact (keeps_analyzeArgs s args callee.1).bind fun _ => .pure _
  | object name fields methods =>
    apply (hread (keeps_requireObjectName name)).bind
    intro _
    apply keeps_openRoot
    intro members
    apply (keeps_bindsTo (hread (keeps_report _)) members).bind
    intro _
    apply (keeps_analyzeFields members fields).bind
    intro _
    apply (bindsTo_declareMethods members methods).bind
    intro signatures
    apply (bindsTo_declareSelf members).bind
    intro _
    exact (keeps_bindsTo (keeps_analyzeMethods members methods signatures) members).bind
      fun _ => .pure _
  | misplaced kind => exact .throw _

theorem keeps_analyzeArgs (s : ScopeId) (es : List Expr) (params : List Ty) :
    Keeps SameBindings (analyzeArgs s es params) := by
  match es, params with
  | [], _ => exact .pure _
  | _ :: _, [] => exact .pure _
  | e :: es, param :: params =>
    apply (keeps_analyzeExpr s e).bind
    intro _
    apply (keeps_of_sameScopes (keeps_requireSubtype _ param)).bind
    intro _
    exact (keeps_analyzeArgs s es params).bind fun _ => .pure _

theorem keeps_analyzeOption (s : ScopeId) (value : Option Expr) :
    Keeps SameBindings (analyzeOption s value) := by
  match value with
  | none => exact .pure _
  | some e => exact (keeps_analyzeExpr s e).bind fun _ => .pure _

theorem binds_analyzeLet (s : ScopeId) (d : LetDecl) :
    Binds s (fun | .mk _ type _ => [(d.name, type)]) (analyzeLet s d) := by
  match d with
  | .mk name typeName value =>
    apply Binds.after (keeps_of_sameScopes (keeps_requireFresh s name))
    intro _
    apply Binds.after (keeps_of_sameScopes (keeps_resolve typeName))
    intro declared
    apply Binds.after (keeps_analyzeOption s value)
    intro value
    cases value
    · exact (binds_define s name _).next fun _ st => ⟨_, st, rfl, rfl, rfl⟩
    · apply Binds.after (keeps_of_sameScopes (keeps_requireSubtype _ _))
      intro _
      exact (binds_define s name _).next fun _ st => ⟨_, st, rfl, rfl, rfl⟩

theorem keeps_analyzeFields (members : ScopeId) (ds : List LetDecl) :
    Keeps (BindsTo members) (analyzeFields members ds) := by
  match ds with
  | [] => exact .pure _
  | d :: ds =>
    exact (binds_analyzeLet members d).bindsTo.bind fun _ =>
      (keeps_analyzeFields members ds).bind fun _ => .pure _

theorem keeps_analyzeDef (parent : ScopeId) (d : DefDecl) (sig : Signature) :
    Keeps SameBindings (analyzeDef parent d sig) := by
  match d with
  | .mk name params _ _ body =>
    exact keeps_openChild fun inner => (keeps_analyzeBlock inner _ body).bind fun _ => .pure _

theorem keeps_analyzeMethods (members : ScopeId) (ds : List DefDecl) (sigs : List Signature) :
    Keeps SameBindings (analyzeMethods members ds sigs) := by
  match ds, sigs with
  | [], _ => exact .pure _
  | _ :: _, [] => exact .pure _
  | d :: ds, sig :: sigs =>
    exact (keeps_analyzeDef members d sig).bind fun _ =>
      (keeps_analyzeMethods members ds sigs).bind fun _ => .pure _

theorem adds_analyzeStmt (s : ScopeId) (returns : Option Ty) (stmt : Stmt) (st : State) :
    AddsEntries s (stmtBinds s st stmt) st.scopes
      (finalState (analyzeStmt s returns stmt st)).scopes := by
  have hread {γ : Type} {y : AnalyzeM γ} (hy : Keeps SameScopes y) : Keeps SameBindings y :=
    keeps_of_sameScopes hy
  cases stmt with
  | letStmt decl =>
    have h := binds_analyzeLet s decl st
    rw [analyzeStmt, bind_apply, stmtBinds]
    cases hr : analyzeLet s decl st with
    | ok td st₁ =>
      rw [hr] at h
      cases td
      exact h
    | error e st₁ =>
      rw [hr] at h
      exact Kept.adds h s
  | defStmt decl =>
    have h := binds_declareFunction s decl st
    rw [analyzeStmt, bind_apply]
    cases hr : declareFunction s decl st with
    | ok sig st₁ =>
      rw [hr] at h
      obtain ⟨hfresh, hsig, -⟩ := declareFunction_eq_ok.1 hr
      simp only [stmtBinds, hfresh, hsig]
      exact Adds.trans_kept h (((keeps_analyzeDef s decl sig).bind fun _ => .pure _) st₁)
    | error e st₁ =>
      rw [hr] at h
      rw [stmtBinds_of_error hr]
      exact Kept.adds h s
  | ifStmt condition thenBody elseBody =>
    have hkeeps : Keeps SameBindings
        (analyzeStmt s returns (.ifStmt condition thenBody elseBody)) := by
      apply (keeps_analyzeExpr s condition).bind
      intro _
      apply (hread (keeps_requireBoolean _)).bind
      intro _
      apply keeps_openChild
      intro inner
      refine (keeps_analyzeBlock inner returns thenBody).bind fun _ => keeps_bindsTo ?_ inner
      exact keeps_openChild fun inner =>
        (keeps_analyzeBlock inner returns elseBody).bind fun _ => .pure _
    exact Kept.adds (hkeeps st) s
  | forStmt name iterable body =>
    have hkeeps : Keeps SameBindings (analyzeStmt s returns (.forStmt name iterable body)) := by
      apply (keeps_analyzeExpr s iterable).bind
      intro _
      apply (hread (keeps_requireSubtype _ _)).bind
      intro _
      exact keeps_openChild fun inner =>
        (keeps_analyzeBlock inner returns body).bind fun _ => .pure _
    exact Kept.adds (hkeeps st) s
  | returnStmt value =>
    have hkeeps : Keeps SameBindings (analyzeStmt s returns (.returnStmt value)) := by
      cases returns with
      | none => exact .throw _
      | some returns =>
        apply (keeps_analyzeOption s value).bind
        intro _
        exact (hread (keeps_requireSubtype _ _)).bind fun _ => .pure _
    exact Kept.adds (hkeeps st) s
  | exprStmt e =>
    have hkeeps : Keeps SameBindings (analyzeStmt s returns (.exprStmt e)) :=
      (keeps_analyzeExpr s e).bind fun _ => .pure _
    exact Kept.adds (hkeeps st) s
  | assignStmt target value =>
    have hkeeps : Keeps SameBindings (analyzeStmt s returns (.assignStmt target value)) := by
      cases target with
      | var name =>
        apply (hread (keeps_lookup s name)).bind
        intro t
        cases t with
        | none => exact .throw _
        | some t =>
          apply (keeps_analyzeExpr s value).bind
          intro _
          exact (hread (keeps_requireSubtype _ t)).bind fun _ => .pure _
      | property receiver name =>
        apply (keeps_analyzeExpr s receiver).bind
        intro object
        apply (hread (keeps_memberType _ name)).bind
        intro t
        have hrest : Keeps SameBindings (do
            let value ← analyzeExpr s value
            requireSubtype value.type t
            return Typed.Stmt.assignProperty object name t value) :=
          (keeps_analyzeExpr s value).bind fun _ =>
            (hread (keeps_requireSubtype _ t)).bind fun _ => .pure _
        cases t with
        | fn params returns => exact .bind (.throw _) fun _ => hrest
        | _ => exact hrest
      | _ => exact .throw _
    exact Kept.adds (hkeeps st) s
  | misplaced kind => exact (Kept.refl _ st.scopes).adds s

theorem keeps_analyzeBlock (s : ScopeId) (returns : Option Ty) (stmts : List Stmt) :
    Keeps (BindsTo s) (analyzeBlock s returns stmts) := by
  match stmts with
  | [] => exact .pure _
  | stmt :: stmts =>
    have hstmt : Keeps (BindsTo s) (analyzeStmt s returns stmt) :=
      fun st => ⟨_, adds_analyzeStmt s returns stmt st⟩
    exact hstmt.bind fun _ => (keeps_analyzeBlock s returns stmts).bind fun _ => .pure _

end

/-- Each statement of a block binds after those before it, and the first that fails is the last. -/
theorem adds_analyzeBlock (s : ScopeId) (returns : Option Ty) (stmts : List Stmt) (st : State) :
    AddsEntries s (blockBinds s returns st stmts) st.scopes
      (finalState (analyzeBlock s returns stmts st)).scopes := by
  induction stmts generalizing st with
  | nil => exact (Kept.refl _ st.scopes).adds s
  | cons stmt stmts ih =>
    have hstmt := adds_analyzeStmt s returns stmt st
    rw [analyzeBlock, bind_apply, blockBinds]
    cases hr : analyzeStmt s returns stmt st with
    | ok t st₁ =>
      rw [hr] at hstmt
      have hrest := hstmt.trans (ih st₁)
      dsimp only
      rw [bind_apply]
      cases hr' : analyzeBlock s returns stmts st₁ <;> (rw [hr'] at hrest; exact hrest)
    | error e st₁ =>
      rw [hr] at hstmt
      rw [List.append_nil]
      exact hstmt

theorem adds_analyze (s : ScopeId) (p : Program) (st : State) :
    AddsEntries s (programBinds s st p) st.scopes (finalState (analyze s p st)).scopes := by
  cases p with
  | source stmts =>
    have h := adds_analyzeBlock s none stmts st
    show AddsEntries s (blockBinds s none st stmts) st.scopes (finalState
      ((analyzeBlock s none stmts >>= fun ts => pure (Typed.Program.source ts)) st)).scopes
    rw [bind_apply]
    cases hr : analyzeBlock s none stmts st <;> (rw [hr] at h; exact h)
  | stmt stmt =>
    have h := adds_analyzeStmt s none stmt st
    show AddsEntries s (stmtBinds s st stmt) st.scopes (finalState
      ((analyzeStmt s none stmt >>= fun t => pure (Typed.Program.stmt t)) st)).scopes
    rw [bind_apply]
    cases hr : analyzeStmt s none stmt st <;> (rw [hr] at h; exact h)
  | expr e => exact Kept.adds (((keeps_analyzeExpr s e).bind fun _ => .pure _) st) s

/-- No name is bound that is not declared. -/
theorem stmtBinds_declared (s : ScopeId) (st : State) (stmt : Stmt) :
    ∀ e ∈ stmtBinds s st stmt, e.1 ∈ stmt.declared := by
  cases stmt with
  | letStmt decl =>
    rw [stmtBinds, Stmt.declared]
    split <;> simp
  | defStmt decl =>
    rw [stmtBinds, Stmt.declared]
    split
    · simp
    · split <;> simp
  | _ => exact fun _ he => (List.not_mem_nil he).elim

theorem blockBinds_declared (s : ScopeId) (returns : Option Ty) (st : State) (stmts : List Stmt) :
    ∀ e ∈ blockBinds s returns st stmts, e.1 ∈ stmts.flatMap Stmt.declared := by
  induction stmts generalizing st with
  | nil => exact fun _ he => (List.not_mem_nil he).elim
  | cons stmt stmts ih =>
    intro e he
    rw [blockBinds, List.mem_append] at he
    rw [List.flatMap_cons, List.mem_append]
    refine he.imp (stmtBinds_declared s st stmt e) fun he => ?_
    split at he
    · exact ih _ e he
    · exact (List.not_mem_nil he).elim

theorem programBinds_declared (s : ScopeId) (st : State) (p : Program) :
    ∀ e ∈ programBinds s st p, e.1 ∈ p.declared := by
  cases p with
  | source stmts => exact blockBinds_declared s none st stmts
  | stmt stmt => exact stmtBinds_declared s st stmt
  | expr e => exact fun _ he => (List.not_mem_nil he).elim

/-- Where nothing is declared, nothing is bound. -/
theorem programBinds_eq_nil {s : ScopeId} {st : State} {p : Program} (h : p.declared = []) :
    programBinds s st p = [] :=
  List.eq_nil_iff_forall_not_mem.2 fun e he =>
    List.not_mem_nil (h ▸ programBinds_declared s st p e he)

theorem keeps_analyze (s : ScopeId) (p : Program) : Keeps (BindsTo s) (analyze s p) :=
  fun st => ⟨_, adds_analyze s p st⟩

theorem kept_expr {e : Expr} {te : Typed.Expr Ty} {st st' : State}
    (h : analyzeExpr s e st = .ok te st') : BindingsKept st.scopes st'.scopes :=
  (keeps_analyzeExpr s e).of_ok h

theorem kept_option {value : Option Expr} {tvalue : Option (Typed.Expr Ty)} {st st' : State}
    (h : analyzeOption s value st = .ok tvalue st') : BindingsKept st.scopes st'.scopes :=
  (keeps_analyzeOption s value).of_ok h

theorem kept_def {d : DefDecl} {sig : Signature} {td : Typed.DefDecl Ty} {st st' : State}
    (h : analyzeDef s d sig st = .ok td st') : BindingsKept st.scopes st'.scopes :=
  (keeps_analyzeDef s d sig).of_ok h

/-- A body adds names to the scope that is made for it, and so to none from before. -/
theorem kept_body {own : Bindings Ty} {returns : Option Ty} {body : List Stmt}
    {tbody : List (Typed.Stmt Ty)} {Γ : TypeScopes} {st st' : State}
    (hst : st.scopes = Γ.addChild s own)
    (h : analyzeBlock Γ.size returns body st = .ok tbody st') : BindingsKept Γ st'.scopes := by
  obtain ⟨_, hadds⟩ := (keeps_analyzeBlock _ _ _).of_ok h
  rw [hst] at hadds
  exact kept_addChild.trans_adds_new (Nat.le_refl _) hadds

end ObjectLang.Analysis
