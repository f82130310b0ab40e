import ObjectLang.Proofs.Finite.Steps

/-!
Whole programs without assignments, by induction on the depth of the run. Functions that are found in
the scopes have no assignments in their bodies either, so calls are runs of the same kind.
-/

namespace ObjectLang.Evaluation

open Forest

variable {live : List ScopeId} {s t : ScopeId} {m : Machine} {v : Value} {vs : List Value}
  {own : Bindings Value}

/-- A function has no assignment in its body, and is a value that is whole. -/
theorem assignmentFree_ofDecl {isMethod : Bool} {d : DefDecl} {c : Closure}
    (hd : d.Every (fun _ => True) NoAssignments) (h : Closure.ofDecl s isMethod d = .ok c) :
    (Callable.closure c).AssignmentFree := by
  obtain ⟨name, params, annotations, returnType, body⟩ := d
  dsimp only [Closure.ofDecl] at h
  split at h
  · cases h
    exact assignmentFree_of_block hd.1 hd.2
  · cases h

section Lists

variable {exec : Path → Stmt → Watched Completion} {eval : Path → Expr → Watched Value}
  (heval : ∀ m path e, Working live s m.scopes → e.AssignmentFree →
    Builds live s (Gives live) (eval path e) m)

theorem builds_watchBlock {sts : List Stmt}
    (h : ∀ m path, ∀ st ∈ sts, Working live s m.scopes →
      Builds live s (Completes live) (exec path st) m)
    (path : Path) {last : Value} (hm : Working live s m.scopes) (hlast : last.Whole live m.scopes) :
    Builds live s (Completes live) (watchBlock exec path last sts) m := by
  induction sts generalizing m path last with
  | nil => exact builds_pure hm hlast
  | cons st sts ih =>
    refine (h m _ st (List.mem_cons_self ..) hm).bind hm fun c m' _ hm' hc => ?_
    cases c with
    | normal v => exact ih (fun m path st hst => h m path st (List.mem_cons_of_mem _ hst)) _ hm' hc
    | returning v => exact builds_pure hm' hc

theorem builds_watchLoop {body : Value → Watched Completion} {items : List Value}
    (h : ∀ m item, Working live s m.scopes → item.Whole live m.scopes →
      Builds live s (Completes live) (body item) m)
    (hm : Working live s m.scopes) (hitems : ∀ item ∈ items, item.Whole live m.scopes) :
    Builds live s (Completes live) (watchLoop body items) m := by
  induction items generalizing m with
  | nil => exact builds_pure hm (Value.whole_nil)
  | cons item items ih =>
    obtain ⟨hitem, hitems⟩ := List.forall_mem_cons.1 hitems
    refine (h m item hm hitem).bind hm fun c m' hkeep hm' hc => ?_
    cases c with
    | normal v => exact ih hm' fun i hi => hkeep i (hitems i hi)
    | returning v => exact builds_pure hm' hc

include heval

theorem builds_watchArgs {es : List Expr} (hes : ArgsEvery (fun _ => True) NoAssignments es)
    (path : Path) (hm : Working live s m.scopes) :
    Builds live s (GivesAll live) (watchArgs eval path es) m := by
  induction es generalizing m path with
  | nil => exact builds_pure hm fun _ hv => nomatch hv
  | cons e es ih =>
    refine (heval m _ e hm hes.1).bind hm fun v m₁ _ hm₁ hv => ?_
    refine (ih hes.2 _ hm₁).bind hm₁ fun vs m₂ hkeep hm₂ hvs => ?_
    exact builds_pure hm₂ (List.forall_mem_cons.2 ⟨hkeep v hv, hvs⟩)

theorem builds_watchOption {value : Option Expr}
    (hvalue : OptionEvery (fun _ => True) NoAssignments value) (path : Path)
    (hm : Working live s m.scopes) :
    Builds live s (Gives live) (watchOption eval path value) m := by
  cases value with
  | none => exact builds_pure hm (Value.whole_nil)
  | some e => exact heval m _ e hm hvalue

theorem builds_watchLet {d : LetDecl} (hd : d.Every (fun _ => True) NoAssignments) (path : Path)
    (hm : Working live s m.scopes) : Builds live s (Gives live) (watchLet eval s path d) m := by
  obtain ⟨name, typeName, value⟩ := d
  refine (builds_still hm (keeps_requireFresh s name) (ends_requireFresh s name)).bind hm
    fun _ m₁ _ hm₁ _ => ?_
  refine (builds_watchOption heval hd path hm₁).bind hm₁ fun v m₂ _ hm₂ hv => ?_
  exact (builds_define hm₂ hv name).bind hm₂ fun _ m₃ _ hm₃ hv => builds_pure hm₃ hv

theorem builds_watchFields {ds : List LetDecl} (hds : FieldsEvery (fun _ => True) NoAssignments ds)
    (path : Path) (hm : Working live s m.scopes) :
    Builds live s (fun _ _ => True) (watchFields eval s path ds) m := by
  induction ds generalizing m path with
  | nil => exact builds_pure hm trivial
  | cons d ds ih =>
    exact (builds_watchLet heval hds.1 _ hm).bind hm fun _ m' _ hm' _ => ih hds.2 _ hm'

end Lists

theorem builds_watchDef {isMethod : Bool} {d : DefDecl}
    (hd : d.Every (fun _ => True) NoAssignments) (hm : Working live s m.scopes) :
    Builds live s (Gives live) (watchDef s isMethod d) m := by
  refine (builds_still hm (keeps_requireFresh s d.name) (ends_requireFresh s d.name)).bind hm
    fun _ m₁ _ hm₁ _ => ?_
  split
  · next c hc =>
    have hfree := assignmentFree_ofDecl hd hc
    refine (builds_define hm₁ (Value.whole_function hfree) d.name).bind hm₁ fun _ m₂ _ hm₂ _ => ?_
    exact (builds_made hm₂ c).bind hm₂ fun _ _ _ hm₃ _ =>
      builds_pure hm₃ (Value.whole_function hfree)
  · exact builds_fail hm₁ _

theorem builds_watchMethods {ds : List DefDecl}
    (hds : MethodsEvery (fun _ => True) NoAssignments ds) (hm : Working live s m.scopes) :
    Builds live s (fun _ _ => True) (watchMethods s ds) m := by
  induction ds generalizing m with
  | nil => exact builds_pure hm trivial
  | cons d ds ih =>
    refine (builds_watchDef hds.1 hm).bind hm fun v m₁ _ hm₁ _ => ?_
    exact (builds_method hm₁ s d.name v).bind hm₁ fun _ m₂ _ hm₂ _ => ih hds.2 hm₂

/-- What is done in a new scope for a block. -/
theorem builds_watchOpen {α : Type} {Q : α → Machine → Prop} {k : ScopeId → Watched α}
    (hm : Working live s m.scopes) (t : ScopeId) (hown : ∀ e ∈ own.entries, e.2.Whole live m.scopes)
    (outer : ScopeId) (path : Path) (declared : List String)
    (hk : ∀ inner m', Working (inner :: live) inner m'.scopes →
      (∀ v : Value, v.Whole live m.scopes → v.Whole (inner :: live) m'.scopes) →
      Builds (inner :: live) inner Q (k inner) m') :
    Builds live s Q (watchOpen t own outer path declared >>= k) m := by
  show Builds live s Q (step (openChild t own) >>= fun inner =>
    mark (fun _ => .opened inner outer path declared) >>= fun _ => k inner) m
  refine builds_openChild hm t hown fun inner m₁ hm₁ henter => ?_
  refine (builds_opened hm₁ inner outer path declared).bind hm₁ fun _ m₂ hkeep hm₂ _ => ?_
  exact hk inner m₂ hm₂ fun v hv => hkeep v (henter v hv)

section Depth

variable {depth : Nat}

/-- Expressions without assignments build values that are whole, down to a depth. -/
def ExprBuilds (depth : Nat) : Prop := ∀ {live s m path e}, Working live s m.scopes →
  e.AssignmentFree → Builds live s (Gives live) (watchExpr depth s path e) m

/-- Statements without assignments build values that are whole, down to a depth. -/
def StmtBuilds (depth : Nat) : Prop := ∀ {live s m path st}, Working live s m.scopes →
  st.AssignmentFree → Builds live s (Completes live) (watchStmt depth s path st) m

/-- A block without assignments, with a scope of its own. -/
theorem builds_body (hs : StmtBuilds depth) {body : List Stmt} (hbody : ∀ st ∈ body, st.AssignmentFree)
    (hm : Working live s m.scopes) (t : ScopeId)
    (hown : ∀ e ∈ own.entries, e.2.Whole live m.scopes) (path : Path) :
    Builds live s (Completes live) (do
      let inner ← watchOpen t own t path (declaredAll body)
      watchBlock (watchStmt depth inner) [] .nil body) m := by
  refine builds_watchOpen hm t hown t path _ fun inner m₁ hm₁ _ => ?_
  refine (builds_watchBlock (fun m path st hst hm => hs hm (hbody st hst)) [] hm₁
    (Value.whole_nil)).imp fun c m' hc => ?_
  exact hc.leave

section Calls

variable (hs : StmtBuilds depth) {c : Closure} (hc : ∀ st ∈ c.body, st.AssignmentFree)
include hs hc

theorem builds_watchEnter (hm : Working live s m.scopes) (scope : ScopeId)
    (hvs : ∀ v ∈ vs, v.Whole live m.scopes) :
    Builds live s (Gives live) (watchEnter (watchStmt depth) c scope vs) m := by
  refine builds_watchOpen hm scope (fun e he => hvs e.2 (List.of_mem_zip he).2) c.scope _ _
    fun inner m₁ hm₁ _ => ?_
  have hreport (event : Event) {m : Machine} (hm : Working (inner :: live) inner m.scopes) :
      Builds (inner :: live) inner (fun _ _ => True) (step (report event)) m :=
    builds_still hm (keeps_report event) trivial
  refine (hreport _ hm₁).bind hm₁ fun _ m₂ _ hm₂ _ => ?_
  refine (builds_watchBlock (fun m path st hst hm => hs hm (hc st hst)) [] hm₂
    (Value.whole_nil)).bind hm₂ fun outcome m₃ _ hm₃ hv => ?_
  cases outcome with
  | normal v => exact builds_pure hm₃ (Value.whole_nil)
  | returning v =>
    refine (hreport _ hm₃).bind hm₃ fun _ m₄ hkeep hm₄ _ => ?_
    exact builds_pure hm₄ (hkeep v hv).leave

theorem builds_watchClosure (hm : Working live s m.scopes) (hvs : ∀ v ∈ vs, v.Whole live m.scopes) :
    Builds live s (Gives live) (watchClosure (watchStmt depth) c vs) m := by
  refine (builds_called hm c).bind hm fun _ m₁ hkeep hm₁ _ => ?_
  have hvs₁ : ∀ v ∈ vs, v.Whole live m₁.scopes := fun v hv => hkeep v (hvs v hv)
  split
  · split
    · next receiver args =>
      obtain ⟨hreceiver, hargs⟩ := List.forall_mem_cons.1 hvs₁
      split
      · refine builds_watchOpen hm₁ c.scope ?_ c.scope _ _ fun scope m₂ hm₂ henter => ?_
        · intro e he
          obtain rfl := List.mem_singleton.1 he
          exact hreceiver
        · exact (builds_watchEnter hs hc hm₂ scope fun v hv => henter v (hargs v hv)).imp
            fun v m' hv => hv.leave
      · exact builds_fail hm₁ _
    · exact builds_fail hm₁ _
  · split
    · exact builds_watchEnter hs hc hm₁ c.scope hvs₁
    · exact builds_fail hm₁ _

end Calls

theorem builds_watchCall (hs : StmtBuilds depth) {f : Callable} (hf : f.AssignmentFree)
    (hm : Working live s m.scopes) (hvs : ∀ v ∈ vs, v.Whole live m.scopes) :
    Builds live s (Gives live) (watchCall (watchStmt depth) f vs) m := by
  cases f with
  | native f => exact builds_still hm (keeps_native f vs) (ends_native f hvs)
  | closure c => exact builds_watchClosure hs hf hm hvs
  | named name => exact builds_pure hm (Value.whole_nil)

theorem builds_watchBinary {left right : Watched Value} (op : Operator)
    (hl : ∀ m, Working live s m.scopes → Builds live s (Gives live) left m)
    (hr : ∀ m, Working live s m.scopes → Builds live s (Gives live) right m)
    (hm : Working live s m.scopes) : Builds live s (Gives live) (watchBinary op left right) m := by
  have hlogical {m : Machine} (hm : Working live s m.scopes) :
      Builds live s (Gives live) (watchLogical op right) m := by
    refine (hr m hm).bind hm fun v m₁ _ hm₁ _ => ?_
    refine (builds_still hm₁ (keeps_requireOperand op v) (ends_requireOperand op v)).bind hm₁
      fun b m₂ _ hm₂ _ => builds_pure hm₂ (gives_flat trivial)
  have hboth {f : Value → Value → EvalM Value} (hf : ∀ a b, Keeps SameScopes (f a b))
      (h : ∀ m a b, a.Whole live m.scopes → b.Whole live m.scopes →
        Ends (Gives live) Fault.IsError (f a b m)) :
      Builds live s (Gives live) (do step (f (← left) (← right))) m := by
    refine (hl m hm).bind hm fun a m₁ _ hm₁ ha => ?_
    refine (hr m₁ hm₁).bind hm₁ fun b m₂ hkeep hm₂ hb => ?_
    exact builds_still hm₂ (hf a b) (h m₂ a b (hkeep a ha) hb)
  cases op with
  | and | or =>
    refine (hl m hm).bind hm fun v m₁ _ hm₁ _ => ?_
    refine (builds_still hm₁ (keeps_requireOperand _ v) (ends_requireOperand _ v)).bind hm₁
      fun b m₂ _ hm₂ _ => ?_
    cases b
    all_goals first | exact hlogical hm₂ | exact builds_pure hm₂ (gives_flat trivial)
  | add => exact hboth keeps_plus fun m a b => ends_plus
  | sub | mul => exact hboth (keeps_arithmetic _ _ _) fun m a b _ _ => ends_arithmetic _ _ _ a b
  | div => exact hboth keeps_divide fun m a b _ _ => ends_divide a b
  | eq | ne =>
    refine (hl m hm).bind hm fun a m₁ _ hm₁ ha => ?_
    refine (hr m₁ hm₁).bind hm₁ fun b m₂ hkeep hm₂ _ => ?_
    exact (builds_still hm₂ (keeps_equal a b) (ends_equal (hkeep a ha) b)).bind hm₂
      fun _ m₃ _ hm₃ _ => builds_pure hm₃ (gives_flat trivial)
  | lt | le | gt | ge =>
    exact hboth (fun a b => keeps_ordering _ _ a b) fun m a b _ _ => ends_ordering _ _ a b

theorem exprBuilds_succ (he : ExprBuilds depth) (hs : StmtBuilds depth) : ExprBuilds (depth + 1) := by
  intro live s m path e hm hfree
  apply builds_noting hm
  have heval (m : Machine) (path : Path) (e : Expr) (hm : Working live s m.scopes)
      (hfree : e.AssignmentFree) : Builds live s (Gives live) (watchExpr depth s path e) m := he hm hfree
  cases e with
  | literal value => exact builds_pure hm (Value.whole_literal value)
  | group inner => exact he hm hfree.2
  | binary symbol left right =>
    obtain ⟨-, hl, hr⟩ := hfree
    dsimp only
    split
    · exact builds_watchBinary _ (fun m hm => he hm hl) (fun m hm => he hm hr) hm
    · exact (he hm hl).bind hm fun _ m₁ _ hm₁ _ => (he hm₁ hr).bind hm₁ fun _ m₂ _ hm₂ _ =>
        builds_fail hm₂ _
  | var name =>
    refine (builds_still hm (keeps_lookup s name) (gives_lookup hm s name)).bind hm
      fun found m₁ _ hm₁ hfound => ?_
    cases found with
    | none => exact builds_fail hm₁ _
    | some v => exact builds_pure hm₁ (hfound v rfl)
  | property receiver name =>
    refine (he hm hfree.2).bind hm fun v m₁ _ hm₁ hv => ?_
    refine (builds_still hm₁ (keeps_requireObject v) (ends_requireObject v)).bind hm₁
      fun members m₂ hkeep hm₂ hobject => ?_
    obtain ⟨object, rfl⟩ := hobject
    exact builds_still hm₂ (keeps_member members name) (gives_member (hkeep _ hv) name)
  | call name args =>
    refine (builds_still hm (keeps_lookup s name) (gives_lookup hm s name)).bind hm
      fun found m₁ _ hm₁ hfound => ?_
    cases found with
    | none => exact builds_fail hm₁ _
    | some v =>
      refine (builds_still hm₁ (keeps_requireFunction name v) (ends_requireFunction name v)).bind hm₁
        fun f m₂ _ hm₂ hf => ?_
      subst hf
      refine (builds_watchArgs heval hfree.2 _ hm₂).bind hm₂ fun vs m₃ _ hm₃ hvs => ?_
      exact builds_watchCall hs (hfound _ rfl).fit hm₃ hvs
  | methodCall receiver name args =>
    refine (he hm hfree.2.1).bind hm fun object m₁ _ hm₁ hobject => ?_
    refine (builds_still hm₁ (keeps_requireObject object) (ends_requireObject object)).bind hm₁
      fun members m₂ hkeep₂ hm₂ hmembers => ?_
    obtain ⟨n, rfl⟩ := hmembers
    have hobject₂ := hkeep₂ _ hobject
    refine (builds_still hm₂ (keeps_member members name) (gives_member hobject₂ name)).bind hm₂
      fun v m₃ hkeep₃ hm₃ hv => ?_
    refine (builds_still hm₃ (keeps_requireFunction name v) (ends_requireFunction name v)).bind hm₃
      fun f m₄ hkeep₄ hm₄ hf => ?_
    subst hf
    refine (builds_watchArgs heval hfree.2.2 _ hm₄).bind hm₄ fun vs m₅ hkeep₅ hm₅ hvs => ?_
    refine builds_watchCall hs hv.fit hm₅ (List.forall_mem_cons.2 ⟨?_, hvs⟩)
    exact hkeep₅ _ (hkeep₄ _ (hkeep₃ _ hobject₂))
  | object name fields methods =>
    refine builds_openRoot hm fun members m₁ hnew hm₁ => ?_
    refine (builds_opened hm₁ members s path _).bind hm₁ fun _ m₂ _ hm₂ _ => ?_
    refine (builds_watchFields (fun m path e => he) hfree.2.1 _ hm₂).bind hm₂ fun _ m₃ _ hm₃ _ => ?_
    refine (builds_watchMethods hfree.2.2 hm₃).bind hm₃ fun _ m₄ _ hm₄ _ => ?_
    exact builds_pure hm₄ (hm₄.object hnew name)
  | misplaced kind => exact builds_fail hm _

theorem stmtBuilds_succ (he : ExprBuilds depth) (hs : StmtBuilds depth) : StmtBuilds (depth + 1) := by
  intro live s m path st hm hst
  obtain ⟨hno, hfree⟩ := hst
  have heval (m : Machine) (path : Path) (e : Expr) (hm : Working live s m.scopes)
      (hfree : e.AssignmentFree) : Builds live s (Gives live) (watchExpr depth s path e) m := he hm hfree
  unfold watchStmt
  cases st with
  | letStmt decl =>
    exact (builds_watchLet heval hfree path hm).bind hm fun v m₁ _ hm₁ hv => builds_pure hm₁ hv
  | defStmt decl =>
    exact (builds_watchDef hfree hm).bind hm fun v m₁ _ hm₁ hv => builds_pure hm₁ hv
  | ifStmt condition thenBody elseBody =>
    obtain ⟨hcondition, hthen, helse⟩ := hfree
    refine (he hm hcondition).bind hm fun v m₁ _ hm₁ _ => ?_
    refine (builds_still hm₁ (keeps_requireCondition v) (ends_requireCondition v)).bind hm₁
      fun holds m₂ _ hm₂ _ => ?_
    refine builds_body hs ?_ hm₂ s Value.whole_noEntries _
    cases holds
    · exact assignmentFree_of_block helse.1 helse.2
    · exact assignmentFree_of_block hthen.1 hthen.2
  | forStmt name iterable body =>
    obtain ⟨hiterable, hbody, hall⟩ := hfree
    refine (he hm hiterable).bind hm fun v m₁ _ hm₁ hv => ?_
    refine (builds_still hm₁ (keeps_requireList v) (ends_requireList v)).bind hm₁
      fun items m₂ hkeep hm₂ hitems => ?_
    subst hitems
    refine builds_watchLoop (fun m item hm hitem => ?_) hm₂ fun item hitem =>
      (hkeep _ hv).inside hitem
    refine builds_body hs (assignmentFree_of_block hbody hall) hm s (fun e he => ?_) _
    obtain rfl := List.mem_singleton.1 he
    exact hitem
  | returnStmt value =>
    exact (builds_watchOption heval hfree path hm).bind hm fun v m₁ _ hm₁ hv => builds_pure hm₁ hv
  | exprStmt e => exact (he hm hfree).bind hm fun v m₁ _ hm₁ hv => builds_pure hm₁ hv
  | assignStmt target value => exact absurd trivial hno
  | misplaced kind => exact builds_fail hm _

theorem builds_of_depth (depth : Nat) : ExprBuilds depth ∧ StmtBuilds depth := by
  induction depth with
  | zero =>
    have htooDeep {α : Type} {Q : α → Machine → Prop} {live : List ScopeId} {s : ScopeId} {m : Machine}
        (hm : Working live s m.scopes) : Builds live s Q (step (throw .tooDeep)) m :=
      builds_step hm ⟨[], (Kept.refl _ _).adds s⟩ hm nofun
    exact ⟨fun hm _ => htooDeep hm, fun hm _ => htooDeep hm⟩
  | succ depth ih => exact ⟨exprBuilds_succ ih.1 ih.2, stmtBuilds_succ ih.1 ih.2⟩

/-- A program without assignments builds values that are whole. -/
theorem builds_watch (depth : Nat) {p : Program} (hm : Working live s m.scopes)
    (hp : p.AssignmentFree) : Builds live s (Gives live) (watch depth s p) m := by
  obtain ⟨he, hs⟩ := builds_of_depth depth
  have htop (c : Completion) {m : Machine} (hm : Working live s m.scopes) (hc : Completes live c m) :
      Builds live s (Gives live) (step (topLevel c)) m := by
    cases c with
    | normal v => exact builds_still hm (.pure v) hc
    | returning v => exact builds_fail hm _
  refine (builds_opened hm s s [] _).bind hm fun _ m₁ _ hm₁ _ => ?_
  cases p with
  | source stmts =>
    exact (builds_watchBlock (fun m path st hst hm => hs hm (hp st hst)) [] hm₁ Value.whole_nil).bind
      hm₁ fun c m₂ _ hm₂ hc => htop c hm₂ hc
  | stmt st => exact (hs hm₁ hp).bind hm₁ fun c m₂ _ hm₂ hc => htop c hm₂ hc
  | expr e => exact he hm₁ hp

end Depth

end ObjectLang.Evaluation
