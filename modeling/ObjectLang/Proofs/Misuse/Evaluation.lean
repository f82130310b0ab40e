import ObjectLang.Proofs.Misuse.Steps
import ObjectLang.Proofs.Scoping.Steps

/-!
Evaluation does not misuse a scope: it defines no name that the scope has, and assigns to no name
that is not there. A check stands before every such step, but a value is found in between, and finding
it can run any code. What the check has found out stays true, since a run changes no names in the
scopes that are there before it.
-/

namespace ObjectLang.Evaluation

open Forest

variable {α : Type} {s t members : ScopeId} {name : String} {v : Value} {x : EvalM α} {depth : Nat}

/-- A fault that is not the misuse of a scope. -/
def Innocent : Fault → Prop
  | .error e => e.kind ≠ .scope
  | .tooDeep | .endless => True

theorem innocent_error {e : EvalError} (kind : EvalErrorKind) (he : e.kind = kind)
    (h : kind ≠ .scope) : Innocent (.error e) :=
  show e.kind ≠ .scope from he ▸ h

instance : Tolerates Innocent where
  typeError _ he := innocent_error _ he (by decide)
  divideByZero _ he := innocent_error _ he (by decide)
  tooDeep := trivial
  endless := trivial

/-- The scope is there. -/
def Has (s : ScopeId) (m : Machine) : Prop := s < m.scopes.size

/-- The scope is there and does not have the name. -/
def Fresh (s : ScopeId) (name : String) (m : Machine) : Prop :=
  Has s m ∧ name ∉ m.scopes.names s

/-- The scope is there, and the name is seen from `t`. -/
def Bound (s t : ScopeId) (name : String) (m : Machine) : Prop :=
  Has s m ∧ name ∈ m.scopes.namesFrom t

/-- A run that does not misuse a scope. -/
abbrev Proper (s : ScopeId) (x : EvalM α) : Prop := Leads (Has s) (Has s) Innocent x

theorem proper_quiet {P : α → Prop} (hx : Quiet Innocent P x) : Proper s x := by
  intro m hs
  apply (hx m).mono
  rintro _ m' _ ⟨_, hm⟩
  rwa [Has, hm]

theorem leads_fail {I J : Machine → Prop} {e : EvalError} (h : e.kind ≠ .scope) :
    Leads I J Innocent (fail e : EvalM α) := .throw h

theorem proper_lookup (t : ScopeId) (name : String) : Proper s (lookup t name) := fun _ hs => hs

theorem proper_member (members : ScopeId) (name : String) : Proper s (member members name) := by
  intro m hs
  rw [member_apply]
  split
  · exact hs
  · exact nofun

/-- A scope that is opened later does not take the place of one that is there. -/
theorem proper_openChild {own : Bindings Value} {k : ScopeId → EvalM α}
    (hk : ∀ inner, Proper inner (k inner)) : Proper s (openChild t own >>= k) := by
  intro m hs
  have hs : s < m.scopes.size := hs
  apply (hk m.scopes.size { m with scopes := m.scopes.addChild t own } (by simp [Has])).mono
  exact fun _ _ _ => Nat.lt_trans hs

theorem proper_openRoot {k : ScopeId → EvalM α} (hk : ∀ inner, Proper inner (k inner)) :
    Proper s (openRoot >>= k) := by
  intro m hs
  have hs : s < m.scopes.size := hs
  apply (hk m.scopes.size { m with scopes := m.scopes.addRoot ∅ } (by simp [Has])).mono
  exact fun _ _ _ => Nat.lt_trans hs

section Checks

theorem leads_requireFresh : Leads (Has s) (Fresh s name) Innocent (requireFresh s name) := by
  intro m hs
  rw [requireFresh_apply]
  split
  · exact nofun
  · next hown => exact ⟨hs, fun hn => hown (containsOwn_iff.2 hn)⟩

theorem leads_define : Leads (Fresh s name) (Has s) Innocent (define s name v) := by
  rintro m ⟨hs, hn⟩
  rw [define_apply, if_neg fun hown => hn (containsOwn_iff.1 hown)]
  show s < (m.scopes.insert s name v).size
  rwa [size_insert]

theorem leads_requireBound : Leads (Has s) (Bound s s name) Innocent (requireBound s name) := by
  intro m hs
  rw [requireBound_apply]
  split
  · next hn => exact ⟨hs, Forest.contains_iff.1 hn⟩
  · exact nofun

theorem leads_requireMember :
    Leads (Has s) (Bound s members name) Innocent (requireMember members name) := by
  intro m hs
  rw [requireMember_apply]
  split
  · next hn => exact ⟨hs, List.mem_append_left _ (containsOwn_iff.1 hn)⟩
  · exact nofun

theorem leads_assign : Leads (Bound s t name) (Has s) Innocent (assign t name v) := by
  rintro m ⟨hs, hn⟩
  obtain ⟨o, ho⟩ := exists_owner hn
  rw [assign_apply, ho]
  show s < (m.scopes.insert o name v).size
  rwa [size_insert]

/-- Finding a value gives the scope no name. -/
theorem fresh_stays (hx : Proper s x) (hk : Keeps SameNames x) :
    Leads (Fresh s name) (Fresh s name) Innocent x := by
  refine hx.and_keeps hk fun m m' hm hs hn => ?_
  have hnames : m'.scopes.names s = m.scopes.names s := hm.view_eq s hs
  rwa [hnames]

/-- Finding a value takes no name away. -/
theorem bound_stays (hx : Proper s x) (hk : Keeps SameNames x) :
    Leads (Bound s t name) (Bound s t name) Innocent x :=
  hx.and_keeps hk fun _ _ hm _ => NamesKept.mem_namesFrom hm

end Checks

section Lists

theorem proper_runBlock {exec : Stmt → EvalM Completion} (h : ∀ st, Proper s (exec st))
    (last : Value) (sts : List Stmt) : Proper s (runBlock exec last sts) := by
  induction sts generalizing last with
  | nil => exact .pure _
  | cons st sts ih =>
    apply (h st).bind
    intro c
    cases c with
    | normal v => exact ih v
    | returning v => exact .pure _

theorem proper_runLoop {body : Value → EvalM Completion} (h : ∀ v, Proper s (body v))
    (items : List Value) : Proper s (runLoop body items) := by
  induction items with
  | nil => exact .pure _
  | cons item items ih =>
    apply (h item).bind
    intro c
    cases c with
    | normal v => exact ih
    | returning v => exact .pure _

variable {eval : Expr → EvalM Value} (h : ∀ e, Proper s (eval e))
include h

theorem proper_evalArgs (es : List Expr) : Proper s (evalArgs eval es) := by
  induction es with
  | nil => exact .pure _
  | cons e es ih => exact (h e).bind fun v => ih.bind fun vs => .pure _

theorem proper_evalOption (value : Option Expr) : Proper s (evalOption eval value) := by
  cases value with
  | none => exact .pure _
  | some e => exact h e

theorem proper_execLet (hk : ∀ e, Keeps SameNames (eval e)) (d : LetDecl) :
    Proper s (execLet eval s d) := by
  obtain ⟨name, _, value⟩ := d
  apply leads_requireFresh.bind
  intro _
  apply (fresh_stays (proper_evalOption h value) (keeps_evalOption hk value)).bind
  intro v
  exact leads_define.bind fun _ => .pure _

theorem proper_execFields (hk : ∀ e, Keeps SameNames (eval e)) (ds : List LetDecl) :
    Proper s (execFields eval s ds) := by
  induction ds with
  | nil => exact .pure _
  | cons d ds ih => exact (proper_execLet h hk d).bind fun _ => ih

end Lists

theorem proper_execDef (isMethod : Bool) (d : DefDecl) : Proper s (execDef s isMethod d) := by
  apply leads_requireFresh.bind
  intro _
  split
  · exact leads_define.bind fun _ => .pure _
  · exact leads_fail nofun

theorem proper_execMethods (ds : List DefDecl) : Proper members (execMethods members ds) := by
  induction ds with
  | nil => exact .pure _
  | cons d ds ih => exact (proper_execDef true d).bind fun _ => ih

section Calls

variable {exec : ScopeId → Stmt → EvalM Completion} (h : ∀ s st, Proper s (exec s st))
include h

theorem proper_enter (c : Closure) (scope : ScopeId) (args : List Value) :
    Proper s (enter exec c scope args) := by
  apply proper_openChild
  intro inner
  apply (proper_quiet (quiet_report _)).bind
  intro _
  apply (proper_runBlock (h inner) .nil c.body).bind
  intro outcome
  cases outcome with
  | normal v => exact .pure _
  | returning v => exact (proper_quiet (quiet_report _)).bind fun _ => .pure _

theorem proper_callClosure (c : Closure) (args : List Value) :
    Proper s (callClosure exec c args) := by
  have hfail (expected : Nat) (given : Int) :
      Proper s (fail (.arityMismatch c.name expected given) : EvalM Value) :=
    leads_fail nofun
  unfold callClosure
  split
  · split
    · split
      · exact proper_openChild fun inner => proper_enter h c inner _
      · exact hfail _ _
    · exact hfail _ _
  · split
    · exact proper_enter h c c.scope args
    · exact hfail _ _

theorem proper_call (f : Callable) (args : List Value) : Proper s (call exec f args) := by
  cases f with
  | native f =>
    exact proper_quiet (quiet_native f args (.inr fun _ he => innocent_error _ he (by decide)))
  | closure c => exact proper_callClosure h c args
  | named name => exact .pure _

end Calls

theorem proper_binary (op : Operator) {left right : EvalM Value} (hl : Proper s left)
    (hr : Proper s right) : Proper s (binary op left right) := by
  have hlogical : Proper s (logical op right) :=
    hr.bind fun v => (proper_quiet (quiet_requireOperand op v)).bind fun _ => .pure _
  have hboth {f : Value → Value → EvalM Value} (hf : ∀ a b, Proper s (f a b)) :
      Proper s (do f (← left) (← right)) :=
    hl.bind fun a => hr.bind fun b => hf a b
  cases op with
  | and | or =>
    apply hl.bind
    intro v
    apply (proper_quiet (quiet_requireOperand _ v)).bind
    intro b
    cases b
    all_goals first | exact hlogical | exact .pure _
  | add => exact hboth fun a b => proper_quiet (quiet_plus a b)
  | sub | mul => exact hboth fun a b => proper_quiet (quiet_arithmetic _ _ _ a b)
  | div => exact hboth fun a b => proper_quiet (quiet_divide a b)
  | eq | ne => exact hboth fun a b => (proper_quiet (quiet_equal a b)).bind fun _ => .pure _
  | lt | le | gt | ge => exact hboth fun a b => proper_quiet (quiet_ordering _ _ a b)

/-- No expression misuses a scope at a given depth. -/
def ExprProper (depth : Nat) : Prop := ∀ s e, Proper s (evalExpr depth s e)

/-- No statement misuses a scope at a given depth. -/
def StmtProper (depth : Nat) : Prop := ∀ s st, Proper s (execStmt depth s st)

theorem exprProper_succ (he : ExprProper depth) (hs : StmtProper depth) :
    ExprProper (depth + 1) := by
  intro s e
  unfold evalExpr
  cases e with
  | literal value => exact .pure _
  | group inner => exact he s inner
  | binary symbol left right =>
    dsimp only
    split
    · exact proper_binary _ (he s left) (he s right)
    · exact (he s left).bind fun _ => (he s right).bind fun _ =>
        leads_fail nofun
  | var name =>
    apply (proper_lookup s name).bind
    intro v
    cases v with
    | none => exact leads_fail nofun
    | some v => exact .pure _
  | property receiver name =>
    apply (he s receiver).bind
    intro v
    apply (proper_quiet (quiet_requireObject v)).bind
    intro members
    exact proper_member members name
  | call name args =>
    apply (proper_lookup s name).bind
    intro v
    cases v with
    | none => exact leads_fail nofun
    | some v =>
      apply (proper_quiet (quiet_requireFunction name v)).bind
      intro f
      exact (proper_evalArgs (he s) args).bind fun vs => proper_call hs f vs
  | methodCall receiver name args =>
    apply (he s receiver).bind
    intro object
    apply (proper_quiet (quiet_requireObject object)).bind
    intro members
    apply (proper_member members name).bind
    intro v
    apply (proper_quiet (quiet_requireFunction name v)).bind
    intro f
    exact (proper_evalArgs (he s) args).bind fun vs => proper_call hs f (object :: vs)
  | object name fields methods =>
    apply proper_openRoot
    intro members
    apply (proper_execFields (he members) ((frame_of_depth depth).1 members) fields).bind
    intro _
    exact (proper_execMethods methods).bind fun _ => .pure _
  | misplaced kind => exact leads_fail nofun

theorem stmtProper_succ (he : ExprProper depth) (hs : StmtProper depth) :
    StmtProper (depth + 1) := by
  have hkeeps : ExprFrame depth := (frame_of_depth depth).1
  intro s st
  unfold execStmt
  cases st with
  | letStmt decl => exact (proper_execLet (he s) (hkeeps s) decl).bind fun _ => .pure _
  | defStmt decl => exact (proper_execDef false decl).bind fun _ => .pure _
  | ifStmt condition thenBody elseBody =>
    apply (he s condition).bind
    intro v
    apply (proper_quiet (quiet_requireCondition v)).bind
    intro holds
    exact proper_openChild fun inner => proper_runBlock (hs inner) _ _
  | forStmt name iterable body =>
    apply (he s iterable).bind
    intro v
    apply (proper_quiet (quiet_requireList v)).bind
    intro items
    exact proper_runLoop (fun item =>
      proper_openChild fun inner => proper_runBlock (hs inner) _ body) items
  | returnStmt value => exact (proper_evalOption (he s) value).bind fun _ => .pure _
  | exprStmt e => exact (he s e).bind fun _ => .pure _
  | assignStmt target value =>
    have hvalue : Proper s (evalExpr depth s value) := he s value
    cases target with
    | var name =>
      apply leads_requireBound.bind
      intro _
      apply (bound_stays hvalue (hkeeps s value)).bind
      intro v
      exact leads_assign.bind fun _ => .pure _
    | property receiver name =>
      apply (he s receiver).bind
      intro v
      apply (proper_quiet (quiet_requireObject v)).bind
      intro members
      apply leads_requireMember.bind
      intro _
      apply (bound_stays hvalue (hkeeps s value)).bind
      intro v
      exact leads_assign.bind fun _ => .pure _
    | _ => exact leads_fail nofun
  | misplaced kind => exact leads_fail nofun

theorem proper_of_depth (depth : Nat) : ExprProper depth ∧ StmtProper depth := by
  induction depth with
  | zero => exact ⟨fun _ _ => .throw trivial, fun _ _ => .throw trivial⟩
  | succ depth ih => exact ⟨exprProper_succ ih.1 ih.2, stmtProper_succ ih.1 ih.2⟩

theorem proper_topLevel (c : Completion) : Proper s (topLevel c) := by
  cases c with
  | normal v => exact .pure _
  | returning v => exact leads_fail nofun

theorem proper_evaluate (depth : Nat) (s : ScopeId) (p : Program) :
    Proper s (evaluate depth s p) := by
  obtain ⟨he, hs⟩ := proper_of_depth depth
  cases p with
  | source stmts => exact (proper_runBlock (hs s) .nil stmts).bind proper_topLevel
  | stmt st => exact (hs s st).bind proper_topLevel
  | expr e => exact he s e

/-- Opening a scope with bindings is to open an empty one and to define the names one after another. -/
theorem openChild_eq_defines (parent : ScopeId) (own : Bindings Value) :
    openChild parent own = (do
      let inner ← openChild parent ∅
      forM own.entries fun e => define inner e.1 e.2
      return inner) := by
  funext m
  have hdefine (f : ValueScopes) (s : ScopeId) (name : String) (v : Value) (hn : name ∉ f.names s) :
      define s name v { m with scopes := f } = .ok () { m with scopes := f.insert s name v } := by
    rw [define_apply, if_neg fun hown => hn (containsOwn_iff.1 hown)]
  have hrun := forM_define hdefine m.scopes parent own ∅ rfl
  rw [openChild_apply, bind_apply, openChild_apply]
  show _ = ((forM own.entries fun e => define m.scopes.size e.1 e.2) >>= fun _ =>
    pure m.scopes.size) { m with scopes := m.scopes.addChild parent ∅ }
  rw [bind_apply, hrun]
  rfl

end ObjectLang.Evaluation
