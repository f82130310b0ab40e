import ObjectLang.Proofs.Evaluation.Steps
import ObjectLang.Proofs.Resolution.Watch

/-!
What holds of all evaluations under observation because it holds of their steps. A property of runs in
a scope is compositional if it passes from the parts of a run to the whole, where a part may take place
in a scope of its own. The induction over programs is done once, for all such properties.
-/

namespace ObjectLang.Evaluation

/-- A property of runs in a scope passes from their parts to the whole. What steps that leave the
scopes alone do is nothing to it. -/
structure Compositional (P : ScopeId → {α : Type} → Watched α → Prop) : Prop where
  pure {s : ScopeId} {α : Type} (a : α) : P s (Pure.pure a : Watched α)
  bind {s : ScopeId} {α β : Type} {w : Watched α} {g : α → Watched β} :
    P s w → (∀ a, P s (g a)) → P s (w >>= g)
  still {s : ScopeId} {α : Type} {x : EvalM α} : Keeps SameScopes x → P s (step x)
  define (s : ScopeId) (name : String) (v : Value) : P s (step (Evaluation.define s name v))
  assign {s : ScopeId} (t : ScopeId) (name : String) (v : Value) : P s (watchAssign t name v)
  openChild {s : ScopeId} {α : Type} (t : ScopeId) (own : Bindings Value) {k : ScopeId → Watched α} :
    (∀ inner, P inner (k inner)) → P s (step (Evaluation.openChild t own) >>= k)
  opened {s : ScopeId} (t outer : ScopeId) (path : Path) (declared : List String) :
    P s (mark fun _ => .opened t outer path declared)
  made {s : ScopeId} (c : Closure) : P s (mark (.made c))
  called {s : ScopeId} (c : Closure) : P s (mark (.called c))
  method {s : ScopeId} (members : ScopeId) (name : String) (v : Value) :
    P s (mark (.method members name v))
  valued {s : ScopeId} {path : Path} {e : Expr} {w : Watched Value} (he : ∀ name fields methods,
    e ≠ .object name fields methods) : P s w → P s (noting s path e w)
  object {s : ScopeId} {depth : Nat} (path : Path) (name : Option String) {fields : List LetDecl}
    {methods : List DefDecl} :
    (∀ members, P members (watchFields (watchExpr depth members) members [.part 0] fields)) →
    (∀ members, P members (watchMethods members methods)) →
    P s (watchExpr (depth + 1) s path (.object name fields methods))

namespace Compositional

variable {P : ScopeId → {α : Type} → Watched α → Prop} (hP : Compositional P) {s : ScopeId}
include hP

/-- Steps that only read. -/
theorem read {α : Type} {x : EvalM α}
    (hx : ∀ {R : Machine → Machine → Prop} [IsPreorder Machine R], Keeps R x) : P s (step x) :=
  hP.still hx

theorem fail {α : Type} (e : EvalError) : P s (step (Evaluation.fail e : EvalM α)) :=
  hP.read (keeps_fail e)

theorem report (event : Event) : P s (step (Evaluation.report event)) := hP.still (keeps_report event)

section Lists

variable {exec : Path → Stmt → Watched Completion} {eval : Path → Expr → Watched Value}

theorem block (h : ∀ path st, P s (exec path st)) (path : Path) (last : Value) (sts : List Stmt) :
    P s (watchBlock exec path last sts) := by
  induction sts generalizing path last with
  | nil => exact hP.pure _
  | cons st sts ih =>
    apply hP.bind (h _ st)
    intro c
    cases c with
    | normal v => exact ih _ v
    | returning v => exact hP.pure _

theorem loop {body : Value → Watched Completion} (h : ∀ v, P s (body v)) (items : List Value) :
    P s (watchLoop body items) := by
  induction items with
  | nil => exact hP.pure _
  | cons item items ih =>
    apply hP.bind (h item)
    intro c
    cases c with
    | normal v => exact ih
    | returning v => exact hP.pure _

theorem args (h : ∀ path e, P s (eval path e)) (path : Path) (es : List Expr) :
    P s (watchArgs eval path es) := by
  induction es generalizing path with
  | nil => exact hP.pure _
  | cons e es ih => exact hP.bind (h _ e) fun _ => hP.bind (ih _) fun _ => hP.pure _

theorem option (h : ∀ path e, P s (eval path e)) (path : Path) (value : Option Expr) :
    P s (watchOption eval path value) := by
  cases value with
  | none => exact hP.pure _
  | some e => exact h _ e

theorem letDecl (h : ∀ path e, P s (eval path e)) (path : Path) (d : LetDecl) :
    P s (watchLet eval s path d) := by
  obtain ⟨name, typeName, value⟩ := d
  apply hP.bind (hP.read (keeps_requireFresh s name))
  intro _
  apply hP.bind (hP.option h path value)
  intro v
  exact hP.bind (hP.define s name v) fun _ => hP.pure _

theorem fields (h : ∀ path e, P s (eval path e)) (path : Path) (ds : List LetDecl) :
    P s (watchFields eval s path ds) := by
  induction ds generalizing path with
  | nil => exact hP.pure _
  | cons d ds ih => exact hP.bind (hP.letDecl h _ d) fun _ => ih _

theorem defDecl (s : ScopeId) (isMethod : Bool) (d : DefDecl) : P s (watchDef s isMethod d) := by
  apply hP.bind (hP.read (keeps_requireFresh s d.name))
  intro _
  split
  · next c _ =>
    apply hP.bind (hP.define s d.name _)
    intro _
    exact hP.bind (hP.made c) fun _ => hP.pure _
  · exact hP.fail _

theorem methods (members : ScopeId) (ds : List DefDecl) : P members (watchMethods members ds) := by
  induction ds with
  | nil => exact hP.pure _
  | cons d ds ih =>
    apply hP.bind (hP.defDecl members true d)
    intro v
    exact hP.bind (hP.method members d.name v) fun _ => ih

theorem inner {α : Type} (t : ScopeId) (own : Bindings Value) {outer : ScopeId} {path : Path}
    {declared : List String} {k : ScopeId → Watched α} (hk : ∀ inner, P inner (k inner)) :
    P s (watchOpen t own outer path declared >>= k) :=
  hP.openChild t own fun inner => hP.bind (hP.opened inner outer path declared) fun _ => hk inner

end Lists

section Calls

variable {exec : ScopeId → Path → Stmt → Watched Completion} (h : ∀ s path st, P s (exec s path st))
include h

theorem enter (c : Closure) (scope : ScopeId) (args : List Value) :
    P s (watchEnter exec c scope args) := by
  apply hP.inner
  intro inner
  apply hP.bind (hP.report _)
  intro _
  apply hP.bind (hP.block (h inner) [] .nil c.body)
  intro outcome
  cases outcome with
  | normal v => exact hP.pure _
  | returning v => exact hP.bind (hP.report _) fun _ => hP.pure _

theorem closure (c : Closure) (args : List Value) : P s (watchClosure exec c args) := by
  apply hP.bind (hP.called c)
  intro _
  split
  · split
    · split
      · exact hP.inner _ _ fun scope => hP.enter h c scope _
      · exact hP.fail _
    · exact hP.fail _
  · split
    · exact hP.enter h c c.scope args
    · exact hP.fail _

theorem call (f : Callable) (args : List Value) : P s (watchCall exec f args) := by
  cases f with
  | native f => exact hP.still (keeps_native f args)
  | closure c => exact hP.closure h c args
  | named name => exact hP.pure _

end Calls

theorem binary (op : Operator) {left right : Watched Value} (hl : P s left) (hr : P s right) :
    P s (watchBinary op left right) := by
  have hlogical : P s (watchLogical op right) :=
    hP.bind hr fun v => hP.bind (hP.read (keeps_requireOperand op v)) fun _ => hP.pure _
  have hboth {f : Value → Value → EvalM Value}
      (hf : ∀ {R : Machine → Machine → Prop} [IsPreorder Machine R] a b, Keeps R (f a b)) :
      P s (do step (f (← left) (← right))) :=
    hP.bind hl fun a => hP.bind hr fun b => hP.read (hf a b)
  cases op with
  | and | or =>
    apply hP.bind hl
    intro v
    apply hP.bind (hP.read (keeps_requireOperand _ v))
    intro b
    cases b
    all_goals first | exact hlogical | exact hP.pure _
  | add => exact hboth keeps_plus
  | sub | mul => exact hboth fun a b => keeps_arithmetic _ _ _ a b
  | div => exact hboth keeps_divide
  | eq | ne =>
    exact hP.bind hl fun a => hP.bind hr fun b =>
      hP.bind (hP.read (keeps_equal a b)) fun _ => hP.pure _
  | lt | le | gt | ge => exact hboth fun a b => keeps_ordering _ _ a b

section Depth

variable {depth : Nat} (he : ∀ s path e, P s (watchExpr depth s path e))
  (hs : ∀ s path st, P s (watchStmt depth s path st))
include he hs

theorem expr_succ (s : ScopeId) (path : Path) (e : Expr) : P s (watchExpr (depth + 1) s path e) := by
  cases e with
  | literal value => exact hP.valued (by simp) (hP.pure _)
  | group inner => exact hP.valued (by simp) (he s _ inner)
  | binary symbol left right =>
    apply hP.valued (by simp)
    dsimp only
    split
    · exact hP.binary _ (he s _ left) (he s _ right)
    · exact hP.bind (he s _ left) fun _ => hP.bind (he s _ right) fun _ => hP.fail _
  | var name =>
    apply hP.valued (by simp)
    apply hP.bind (hP.read (keeps_lookup s name))
    intro v
    cases v with
    | none => exact hP.fail _
    | some v => exact hP.pure _
  | property receiver name =>
    apply hP.valued (by simp)
    apply hP.bind (he s _ receiver)
    intro v
    apply hP.bind (hP.read (keeps_requireObject v))
    intro members
    exact hP.read (keeps_member members name)
  | call name args =>
    apply hP.valued (by simp)
    apply hP.bind (hP.read (keeps_lookup s name))
    intro v
    cases v with
    | none => exact hP.fail _
    | some v =>
      apply hP.bind (hP.read (keeps_requireFunction name v))
      intro f
      exact hP.bind (hP.args (he s) _ args) fun vs => hP.call hs f vs
  | methodCall receiver name args =>
    apply hP.valued (by simp)
    apply hP.bind (he s _ receiver)
    intro object
    apply hP.bind (hP.read (keeps_requireObject object))
    intro members
    apply hP.bind (hP.read (keeps_member members name))
    intro v
    apply hP.bind (hP.read (keeps_requireFunction name v))
    intro f
    exact hP.bind (hP.args (he s) _ args) fun vs => hP.call hs f (object :: vs)
  | object name fields methods =>
    exact hP.object path name (fun members => hP.fields (he members) _ fields)
      fun members => hP.methods members methods
  | misplaced kind => exact hP.valued (by simp) (hP.fail _)

theorem stmt_succ (s : ScopeId) (path : Path) (st : Stmt) : P s (watchStmt (depth + 1) s path st) := by
  have hbody (own : Bindings Value) (path : Path) (body : List Stmt) : P s (do
      let inner ← watchOpen s own s path (declaredAll body)
      watchBlock (watchStmt depth inner) [] .nil body) :=
    hP.inner s own fun inner => hP.block (hs inner) [] .nil body
  unfold watchStmt
  cases st with
  | letStmt decl => exact hP.bind (hP.letDecl (he s) path decl) fun _ => hP.pure _
  | defStmt decl => exact hP.bind (hP.defDecl s false decl) fun _ => hP.pure _
  | ifStmt condition thenBody elseBody =>
    apply hP.bind (he s _ condition)
    intro v
    apply hP.bind (hP.read (keeps_requireCondition v))
    intro holds
    exact hbody ∅ _ _
  | forStmt name iterable body =>
    apply hP.bind (he s _ iterable)
    intro v
    apply hP.bind (hP.read (keeps_requireList v))
    intro items
    exact hP.loop (fun item => hbody _ _ body) items
  | returnStmt value => exact hP.bind (hP.option (he s) path value) fun _ => hP.pure _
  | exprStmt e => exact hP.bind (he s _ e) fun _ => hP.pure _
  | assignStmt target value =>
    cases target with
    | var name =>
      apply hP.bind (hP.read (keeps_requireBound s name))
      intro _
      apply hP.bind (he s _ value)
      intro v
      exact hP.bind (hP.assign s name v) fun _ => hP.pure _
    | property receiver name =>
      apply hP.bind (he s _ receiver)
      intro v
      apply hP.bind (hP.read (keeps_requireObject v))
      intro members
      apply hP.bind (hP.read (keeps_requireMember members name))
      intro _
      apply hP.bind (he s _ value)
      intro v
      exact hP.bind (hP.assign members name v) fun _ => hP.pure _
    | _ => exact hP.fail _
  | misplaced kind => exact hP.fail _

end Depth

theorem of_depth (depth : Nat) :
    (∀ s path e, P s (watchExpr depth s path e)) ∧ ∀ s path st, P s (watchStmt depth s path st) := by
  induction depth with
  | zero => exact ⟨fun _ _ _ => hP.read (.throw _), fun _ _ _ => hP.read (.throw _)⟩
  | succ depth ih => exact ⟨hP.expr_succ ih.1 ih.2, hP.stmt_succ ih.1 ih.2⟩

/-- What is compositional holds of all programs. -/
theorem watch (depth : Nat) (s : ScopeId) (p : Program) : P s (Evaluation.watch depth s p) := by
  obtain ⟨he, hs⟩ := hP.of_depth depth
  have htop (c : Completion) : P s (step (topLevel c)) := by
    cases c with
    | normal v => exact hP.read (.pure v)
    | returning v => exact hP.fail _
  apply hP.bind (hP.opened s s [] p.declared)
  intro _
  cases p with
  | source stmts => exact hP.bind (hP.block (hs s) [] .nil stmts) htop
  | stmt st => exact hP.bind (hs s _ st) htop
  | expr e => exact he s _ e

end Compositional

end ObjectLang.Evaluation
