import ObjectLang.Analysis.Rules
import ObjectLang.Evaluation.Rules
import ObjectLang.Proofs.Isolation.Steps

/-!
Object literals are isolated from their surroundings. The members of an object are a scope that
nothing is around, so all that runs while an object is made is confined: its fields, the methods of
objects inside it, and the functions that those hand on.
-/

namespace ObjectLang.Evaluation

open Forest

variable {before : Machine} {s members : ScopeId} {depth : Nat}

/-- At a given depth, an expression that is evaluated in a new scope stays in confinement. -/
def ExprStays (before : Machine) (depth : Nat) : Prop :=
  ∀ s e, before.scopes.size ≤ s →
    Stays before (Value.Within before.scopes.size) (evalExpr depth s e)

/-- At a given depth, a statement that is run in a new scope stays in confinement. -/
def StmtStays (before : Machine) (depth : Nat) : Prop :=
  ∀ s st, before.scopes.size ≤ s →
    Stays before (fun c => c.value.Within before.scopes.size) (execStmt depth s st)

theorem noEntries_within {k : ScopeId} : ∀ e ∈ (∅ : Bindings Value).entries, e.2.Within k :=
  fun _ he => nomatch he

theorem within_nil {k : ScopeId} : Value.nil.Within k := trivial

theorem singleton_within {k : ScopeId} {name : String} {v : Value} (hv : v.Within k) :
    ∀ e ∈ (Bindings.singleton name v).entries, e.2.Within k := by
  intro e he
  rw [List.mem_singleton.1 he]
  exact hv

section Expressions

variable (he : ExprStays before depth) (hs : before.scopes.size ≤ s)
include he hs

theorem stays_evalArgs (es : List Expr) :
    Stays before (fun vs => ∀ v ∈ vs, v.Within before.scopes.size)
      (evalArgs (evalExpr depth s) es) := by
  induction es with
  | nil => exact .pure fun _ hv => nomatch hv
  | cons e es ih =>
    exact (he s e hs).bind fun v hv => ih.bind fun vs hvs => .pure (List.forall_mem_cons.2 ⟨hv, hvs⟩)

theorem stays_evalOption (value : Option Expr) :
    Stays before (Value.Within before.scopes.size) (evalOption (evalExpr depth s) value) := by
  cases value with
  | none => exact .pure trivial
  | some e => exact he s e hs

theorem stays_execLet (d : LetDecl) :
    Stays before (Value.Within before.scopes.size) (execLet (evalExpr depth s) s d) := by
  obtain ⟨name, typeName, value⟩ := d
  apply Stays.bind (.ofReading (P := fun _ => True) (keeps_requireFresh s name)
    fun _ _ _ _ _ => trivial)
  intro _ _
  apply (stays_evalOption he hs value).bind
  intro v hv
  exact (stays_define hs name hv).bind fun _ _ => .pure hv

theorem stays_execFields (ds : List LetDecl) :
    Stays before (fun _ => True) (execFields (evalExpr depth s) s ds) := by
  induction ds with
  | nil => exact .pure trivial
  | cons d ds ih => exact (stays_execLet he hs d).bind fun _ _ => ih

end Expressions

theorem stays_execDef (hs : before.scopes.size ≤ s) (isMethod : Bool) (d : DefDecl) :
    Stays before (Value.Within before.scopes.size) (execDef s isMethod d) := by
  apply Stays.bind (.ofReading (P := fun _ => True) (keeps_requireFresh s d.name)
    fun _ _ _ _ _ => trivial)
  intro _ _
  split
  · next c hc =>
    have hv : (Value.function (.closure c)).Within before.scopes.size := by
      rw [Value.Within, ofDecl_scope hc]
      exact hs
    exact (stays_define hs d.name hv).bind fun _ _ => .pure hv
  · exact stays_fail _

theorem stays_execMethods (hs : before.scopes.size ≤ s) (ds : List DefDecl) :
    Stays before (fun _ => True) (execMethods s ds) := by
  induction ds with
  | nil => exact .pure trivial
  | cons d ds ih => exact (stays_execDef hs true d).bind fun _ _ => ih

section Statements

variable (h : StmtStays before depth)
include h

theorem stays_runBlock (hs : before.scopes.size ≤ s) {last : Value}
    (hlast : last.Within before.scopes.size) (sts : List Stmt) :
    Stays before (fun c => c.value.Within before.scopes.size)
      (runBlock (execStmt depth s) last sts) := by
  induction sts generalizing last with
  | nil => exact .pure hlast
  | cons st sts ih =>
    apply (h s st hs).bind
    intro c hc
    cases c with
    | normal v => exact ih hc
    | returning v => exact .pure hc

/-- A block in a new scope inside a new one. -/
theorem stays_body (hs : before.scopes.size ≤ s) {own : Bindings Value}
    (hown : ∀ e ∈ own.entries, e.2.Within before.scopes.size) (body : List Stmt) :
    Stays before (fun c => c.value.Within before.scopes.size)
      (openChild s own >>= fun inner => runBlock (execStmt depth inner) .nil body) :=
  (stays_openChild hs hown).bind fun _ hinner => stays_runBlock h hinner within_nil body

theorem stays_runLoop (hs : before.scopes.size ≤ s) (name : String) (body : List Stmt)
    {items : List Value} (hitems : ∀ v ∈ items, v.Within before.scopes.size) :
    Stays before (fun c => c.value.Within before.scopes.size)
      (runLoop (fun item => do
        let inner ← openChild s (Bindings.singleton name item)
        runBlock (execStmt depth inner) .nil body) items) := by
  induction items with
  | nil => exact .pure trivial
  | cons item items ih =>
    obtain ⟨hitem, hitems⟩ := List.forall_mem_cons.1 hitems
    apply (stays_body h hs (singleton_within hitem) body).bind
    intro c hc
    cases c with
    | normal v => exact ih hitems
    | returning v => exact .pure hc

theorem stays_enter (hs : before.scopes.size ≤ s) (c : Closure) {args : List Value}
    (hargs : ∀ v ∈ args, v.Within before.scopes.size) :
    Stays before (Value.Within before.scopes.size) (enter (execStmt depth) c s args) := by
  apply (stays_openChild hs fun e he => hargs e.2 (List.of_mem_zip he).2).bind
  intro inner hinner
  apply (stays_report _).bind
  intro _ _
  apply (stays_runBlock h hinner within_nil c.body).bind
  intro outcome ho
  cases outcome with
  | normal v => exact .pure trivial
  | returning v => exact (stays_report _).bind fun _ _ => .pure ho

theorem stays_callClosure {c : Closure} (hc : before.scopes.size ≤ c.scope) {args : List Value}
    (hargs : ∀ v ∈ args, v.Within before.scopes.size) :
    Stays before (Value.Within before.scopes.size) (callClosure (execStmt depth) c args) := by
  unfold callClosure
  split
  · split
    · next receiver args =>
      obtain ⟨hreceiver, hargs⟩ := List.forall_mem_cons.1 hargs
      split
      · exact (stays_openChild hc (singleton_within hreceiver)).bind fun inner hinner =>
          stays_enter h hinner c hargs
      · exact stays_fail _
    · exact stays_fail _
  · split
    · exact stays_enter h hc c hargs
    · exact stays_fail _

/-- No native function is called in confinement. -/
theorem stays_call {f : Callable} (hf : (Value.function f).Within before.scopes.size)
    {args : List Value} (hargs : ∀ v ∈ args, v.Within before.scopes.size) :
    Stays before (Value.Within before.scopes.size) (call (execStmt depth) f args) := by
  cases f with
  | native f => exact hf.elim
  | closure c => exact stays_callClosure h hf hargs
  | named name => exact .pure trivial

end Statements

theorem stays_binary {P : Value → Prop} (op : Operator) {left right : EvalM Value}
    (hl : Stays before P left) (hr : Stays before P right) :
    Stays before Scalar (binary op left right) := by
  have hoperand (v : Value) : Stays before (fun _ => True) (requireOperand op v) :=
    .ofQuiet (keeps_requireOperand op v) (quiet_requireOperand op v)
  have hlogical : Stays before Scalar (logical op right) :=
    hr.bind fun v _ => (hoperand v).bind fun _ _ => .pure trivial
  have hboth {f : Value → Value → EvalM Value} (hk : ∀ a b, Keeps Eq (f a b))
      (hf : ∀ a b, Quiet Allowed Scalar (f a b)) : Stays before Scalar (do f (← left) (← right)) :=
    hl.bind fun a _ => hr.bind fun b _ => .ofQuiet (hk a b) (hf a b)
  cases op with
  | and | or =>
    apply hl.bind
    intro v _
    apply (hoperand v).bind
    intro b _
    cases b
    all_goals first | exact hlogical | exact .pure trivial
  | add => exact hboth keeps_plus quiet_plus
  | sub | mul => exact hboth (keeps_arithmetic _ _ _) (quiet_arithmetic _ _ _)
  | div => exact hboth keeps_divide quiet_divide
  | eq | ne =>
    exact hboth (fun a b => (keeps_equal a b).bind fun _ => .pure _)
      (fun a b => (quiet_equal a b).bind fun _ _ => .pure trivial)
  | lt | le | gt | ge =>
    exact hboth (fun _ _ => keeps_ordering _ _ _ _) fun _ _ => quiet_ordering _ _ _ _

/-- The scope that an object is made in plays no part. -/
theorem stays_object (he : ExprStays before depth) (s : ScopeId) (name : Option String)
    (fields : List LetDecl) (methods : List DefDecl) :
    Stays before (Value.Within before.scopes.size)
      (evalExpr (depth + 1) s (.object name fields methods)) := by
  apply stays_openRoot.bind
  intro members hmembers
  apply (stays_execFields he hmembers fields).bind
  intro _ _
  exact (stays_execMethods hmembers methods).bind fun _ _ => .pure hmembers

theorem exprStays_succ (he : ExprStays before depth) (h : StmtStays before depth) :
    ExprStays before (depth + 1) := by
  intro s e hs
  cases e with
  | literal value => exact .pure value.within_toValue
  | group inner => exact he s inner hs
  | binary symbol left right =>
    unfold evalExpr
    dsimp only
    split
    · exact (stays_binary _ (he s left hs) (he s right hs)).mono fun _ => Scalar.within
    · exact (he s left hs).bind fun _ _ => (he s right hs).bind fun _ _ => stays_fail _
  | var name =>
    apply (stays_lookup hs name).bind
    intro v hv
    cases v with
    | none => exact stays_fail _
    | some v => exact .pure (hv v rfl)
  | property receiver name =>
    apply (he s receiver hs).bind
    intro v hv
    exact (stays_requireObject hv).bind fun members hmembers => stays_member hmembers name
  | call name args =>
    apply (stays_lookup hs name).bind
    intro v hv
    cases v with
    | none => exact stays_fail _
    | some v =>
      apply (stays_requireFunction (hv v rfl) name).bind
      intro f hf
      exact (stays_evalArgs he hs args).bind fun vs hvs => stays_call h hf hvs
  | methodCall receiver name args =>
    apply (he s receiver hs).bind
    intro object hobject
    apply (stays_requireObject hobject).bind
    intro members hmembers
    apply (stays_member hmembers name).bind
    intro v hv
    apply (stays_requireFunction hv name).bind
    intro f hf
    apply (stays_evalArgs he hs args).bind
    intro vs hvs
    exact stays_call h hf (List.forall_mem_cons.2 ⟨hobject, hvs⟩)
  | object name fields methods => exact stays_object he s name fields methods
  | misplaced kind => exact stays_fail _

theorem stmtStays_succ (he : ExprStays before depth) (h : StmtStays before depth) :
    StmtStays before (depth + 1) := by
  have hcheck {α : Type} {x : EvalM α} (hx : Keeps Eq x) : Stays before (fun _ => True) x :=
    .ofReading hx fun _ _ _ _ _ => trivial
  intro s st hs
  cases st with
  | letStmt decl => exact (stays_execLet he hs decl).bind fun v hv => .pure hv
  | defStmt decl => exact (stays_execDef hs false decl).bind fun v hv => .pure hv
  | ifStmt condition thenBody elseBody =>
    apply (he s condition hs).bind
    intro v _
    apply (hcheck (keeps_requireCondition v)).bind
    intro holds _
    exact stays_body h hs noEntries_within _
  | forStmt name iterable body =>
    apply (he s iterable hs).bind
    intro v hv
    apply (Stays.ofQuiet (keeps_requireList v) (quiet_requireList v)).bind
    rintro items rfl
    exact stays_runLoop h hs name body (Value.allWithin_iff.1 hv)
  | returnStmt value => exact (stays_evalOption he hs value).bind fun v hv => .pure hv
  | exprStmt e => exact (he s e hs).bind fun v hv => .pure hv
  | assignStmt target value =>
    cases target with
    | var name =>
      apply (hcheck (keeps_requireBound s name)).bind
      intro _ _
      apply (he s value hs).bind
      intro v hv
      exact (stays_assign hs name hv).bind fun _ _ => .pure hv
    | property receiver name =>
      apply (he s receiver hs).bind
      intro v hv
      apply (stays_requireObject hv).bind
      intro members hmembers
      apply (hcheck (keeps_requireMember members name)).bind
      intro _ _
      apply (he s value hs).bind
      intro w hw
      exact (stays_assign hmembers name hw).bind fun _ _ => .pure hw
    | _ => exact stays_fail _
  | misplaced kind => exact stays_fail _

theorem stays_of_depth (before : Machine) (depth : Nat) :
    ExprStays before depth ∧ StmtStays before depth := by
  induction depth with
  | zero => exact ⟨fun _ _ _ _ hm => hm, fun _ _ _ _ hm => hm⟩
  | succ depth ih => exact ⟨exprStays_succ ih.1 ih.2, stmtStays_succ ih.1 ih.2⟩

/-- An object literal means the same wherever it stands, in both passes. To evaluate it writes
nothing and leaves the bindings of all scopes alone that are there before, even when it fails. -/
theorem object_isolated (name : Option String) (fields : List LetDecl) (methods : List DefDecl) :
    (∀ depth s₁ s₂ m, evalExpr depth s₁ (.object name fields methods) m =
      evalExpr depth s₂ (.object name fields methods) m) ∧
    (∀ depth s m, let after := finalState (evalExpr depth s (.object name fields methods) m)
      after.output = m.output ∧ BindingsKept m.scopes after.scopes) ∧
    (∀ s₁ s₂ st, Analysis.analyzeExpr s₁ (.object name fields methods) st =
      Analysis.analyzeExpr s₂ (.object name fields methods) st) ∧
    ∀ s₁ s₂ returns₁ returns₂ st,
      Analysis.analyzeStmt s₁ returns₁ (.exprStmt (.object name fields methods)) st =
        Analysis.analyzeStmt s₂ returns₂ (.exprStmt (.object name fields methods)) st := by
  refine ⟨fun depth _ _ _ => by cases depth <;> rfl, fun depth s m => ?_, fun _ _ _ => rfl,
    fun _ _ _ _ _ => rfl⟩
  cases depth with
  | zero => exact ⟨rfl, Kept.refl _ _⟩
  | succ depth =>
    have h := Confined.final (stays_object (stays_of_depth m depth).1 s name fields methods)
    exact ⟨h.output_eq, h.kept⟩

end ObjectLang.Evaluation
