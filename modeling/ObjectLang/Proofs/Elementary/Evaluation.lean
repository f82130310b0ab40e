import ObjectLang.Proofs.Elementary.Steps
import ObjectLang.Proofs.Elementary.Trees

/-!
Elementary programs come to an end. Their runs nest no deeper than their trees are high: what is run
inside an expression or a statement is a part of it, as no call leads back into the program, and a loop
runs its body for one item after another at one and the same depth.
-/

namespace ObjectLang

open Forest

namespace Evaluation

variable {live : List ScopeId} {s : ScopeId} {m : Machine} {v : Value} {vs : List Value}
  {own : Bindings Value} {depth : Nat}

section Lists

theorem finishes_runBlock {exec : Stmt → EvalM Completion} {sts : List Stmt}
    (h : ∀ m, ∀ st ∈ sts, Engaged live s m.scopes → Finishes live s (Concluded live) (exec st) m)
    {last : Value} (hm : Engaged live s m.scopes) (hlast : last.Simple live m.scopes) :
    Finishes live s (Concluded live) (runBlock exec last sts) m := by
  induction sts generalizing m last with
  | nil => exact finishes_pure hm hlast
  | cons st sts ih =>
    refine (h m st (List.mem_cons_self ..) hm).bind fun c m₁ _ hm₁ hc => ?_
    cases c with
    | normal v => exact ih (fun m st hst => h m st (List.mem_cons_of_mem _ hst)) hm₁ hc
    | returning v => exact finishes_pure hm₁ hc

/-- By induction on the items, however many there are. -/
theorem finishes_runLoop {body : Value → EvalM Completion} {items : List Value}
    (h : ∀ m item, Engaged live s m.scopes → item.Simple live m.scopes →
      Finishes live s (Concluded live) (body item) m)
    (hm : Engaged live s m.scopes) (hitems : ∀ item ∈ items, item.Simple live m.scopes) :
    Finishes live s (Concluded live) (runLoop body items) m := by
  induction items generalizing m with
  | nil => exact finishes_pure hm Value.simple_nil
  | cons item items ih =>
    obtain ⟨hitem, hitems⟩ := List.forall_mem_cons.1 hitems
    refine (h m item hm hitem).bind fun c m₁ hspares hm₁ hc => ?_
    cases c with
    | normal v => exact ih hm₁ fun i hi => (hitems i hi).keep hspares
    | returning v => exact finishes_pure hm₁ hc

variable {eval : Expr → EvalM Value}
  (heval : ∀ m e, Engaged live s m.scopes → e.Elementary → e.height ≤ depth →
    Finishes live s (Yields live) (eval e) m)
include heval

theorem finishes_evalArgs {es : List Expr} (hes : ArgsEvery Expr.NoMethods ElementaryBlock es)
    (hheight : argsHeight es ≤ depth) (hm : Engaged live s m.scopes) :
    Finishes live s (YieldsAll live) (evalArgs eval es) m := by
  induction es generalizing m with
  | nil => exact finishes_pure hm fun _ hv => nomatch hv
  | cons e es ih =>
    obtain ⟨he, hrest⟩ := Nat.max_le.1 hheight
    refine (heval m e hm hes.1 he).bind fun v m₁ _ hm₁ hv => ?_
    refine (ih hes.2 hrest hm₁).bind fun vs m₂ hspares hm₂ hvs => ?_
    exact finishes_pure hm₂ (List.forall_mem_cons.2 ⟨hv.keep hspares, hvs⟩)

theorem finishes_evalOption {value : Option Expr}
    (hvalue : OptionEvery Expr.NoMethods ElementaryBlock value) (hheight : optionHeight value ≤ depth)
    (hm : Engaged live s m.scopes) : Finishes live s (Yields live) (evalOption eval value) m := by
  cases value with
  | none => exact finishes_pure hm Value.simple_nil
  | some e => exact heval m e hm hvalue hheight

theorem finishes_execLet {d : LetDecl} (hd : d.Every Expr.NoMethods ElementaryBlock)
    (hheight : d.height ≤ depth) (hm : Engaged live s m.scopes) :
    Finishes live s (Yields live) (execLet eval s d) m := by
  obtain ⟨name, typeName, value⟩ := d
  refine (finishes_still hm (keeps_requireFresh s name) (ends_requireFresh s name)).bind
    fun _ m₁ _ hm₁ _ => ?_
  refine (finishes_evalOption heval hd hheight hm₁).bind fun v m₂ _ hm₂ hv => ?_
  exact (finishes_define hm₂ hv name).bind fun _ m₃ _ hm₃ hv => finishes_pure hm₃ hv

theorem finishes_execFields {ds : List LetDecl} (hds : FieldsEvery Expr.NoMethods ElementaryBlock ds)
    (hheight : fieldsHeight ds ≤ depth) (hm : Engaged live s m.scopes) :
    Finishes live s (fun _ _ => True) (execFields eval s ds) m := by
  induction ds generalizing m with
  | nil => exact finishes_pure hm trivial
  | cons d ds ih =>
    obtain ⟨hd, hrest⟩ := Nat.max_le.1 hheight
    exact (finishes_execLet heval hds.1 hd hm).bind fun _ m₁ _ hm₁ _ => ih hds.2 hrest hm₁

end Lists

/-- Only native functions are called, and those that go by their names. -/
theorem finishes_call {exec : ScopeId → Stmt → EvalM Completion} {f : Callable}
    (hf : (Value.function f).Simple live m.scopes) (hm : Engaged live s m.scopes)
    (hvs : ∀ v ∈ vs, v.Simple live m.scopes) :
    Finishes live s (Yields live) (call exec f vs) m := by
  cases f with
  | native f => exact finishes_still hm (keeps_native f vs) (yields_native f hvs)
  | closure c => exact absurd rfl (hf.not_closure c)
  | named name => exact finishes_pure hm Value.simple_nil

theorem finishes_binary (op : Operator) {left right : EvalM Value}
    (hl : ∀ m, Engaged live s m.scopes → Finishes live s (Yields live) left m)
    (hr : ∀ m, Engaged live s m.scopes → Finishes live s (Yields live) right m)
    (hm : Engaged live s m.scopes) : Finishes live s (Yields live) (binary op left right) m := by
  have hboolean (b : Bool) {m : Machine} : (Value.boolean b).Simple live m.scopes :=
    Value.simple_of_scalar trivial
  have hlogical {m : Machine} (hm : Engaged live s m.scopes) :
      Finishes live s (Yields live) (logical op right) m := by
    refine (hr m hm).bind fun v m₁ _ hm₁ _ => ?_
    exact (finishes_still hm₁ (keeps_requireOperand op v) (ends_requireOperand op v)).bind
      fun b m₂ _ hm₂ _ => finishes_pure hm₂ (hboolean b)
  have hboth {f : Value → Value → EvalM Value} (hf : ∀ a b, Keeps SameScopes (f a b))
      (h : ∀ m a b, a.Whole live m.scopes → b.Whole live m.scopes →
        Ends (Gives live) Fault.IsError (f a b m))
      (hscalar : ∀ a b, Quiet (fun _ => True) Scalar (f a b)) :
      Finishes live s (Yields live) (do f (← left) (← right)) m := by
    refine (hl m hm).bind fun a m₁ _ hm₁ ha => (hr m₁ hm₁).bind fun b m₂ hspares hm₂ hb => ?_
    have ha₂ : a.Simple live m₂.scopes := ha.keep hspares
    exact finishes_still hm₂ (hf a b)
      (yields_of_scalar (h m₂ a b ha₂.whole hb.whole) (hscalar a b))
  cases op with
  | and | or =>
    refine (hl m hm).bind fun v m₁ _ hm₁ _ => ?_
    refine (finishes_still hm₁ (keeps_requireOperand _ v) (ends_requireOperand _ v)).bind
      fun b m₂ _ hm₂ _ => ?_
    cases b
    all_goals first | exact hlogical hm₂ | exact finishes_pure hm₂ (hboolean _)
  | add => exact hboth keeps_plus (fun _ _ _ => ends_plus) quiet_plus
  | sub | mul =>
    exact hboth (keeps_arithmetic _ _ _) (fun _ a b _ _ => ends_arithmetic _ _ _ a b)
      (quiet_arithmetic _ _ _)
  | div => exact hboth keeps_divide (fun _ a b _ _ => ends_divide a b) quiet_divide
  | eq | ne =>
    refine (hl m hm).bind fun a m₁ _ hm₁ ha => (hr m₁ hm₁).bind fun b m₂ hspares hm₂ _ => ?_
    have ha₂ : a.Simple live m₂.scopes := ha.keep hspares
    exact (finishes_still hm₂ (keeps_equal a b) (ends_equal ha₂.whole b)).bind
      fun _ m₃ _ hm₃ _ => finishes_pure hm₃ (hboolean _)
  | lt | le | gt | ge =>
    exact hboth (fun a b => keeps_ordering _ _ a b) (fun _ a b _ _ => ends_ordering _ _ a b)
      fun a b => quiet_ordering _ _ a b

/-- Elementary expressions finish at a depth that they are at most as high as. -/
def ExprFinishes (depth : Nat) : Prop := ∀ {live s m e}, Engaged live s m.scopes →
  e.Elementary → e.height ≤ depth → Finishes live s (Yields live) (evalExpr depth s e) m

/-- Elementary statements finish at a depth that they are at most as high as. -/
def StmtFinishes (depth : Nat) : Prop := ∀ {live s m st}, Engaged live s m.scopes →
  st.Elementary → st.height ≤ depth → Finishes live s (Concluded live) (execStmt depth s st) m

/-- A block with a scope of its own. -/
theorem finishes_body (hs : StmtFinishes depth) {body : List Stmt}
    (hbody : ∀ st ∈ body, st.Elementary) (hheight : blockHeight body ≤ depth)
    (hm : Engaged live s m.scopes) (hown : ∀ e ∈ own.entries, e.2.Simple live m.scopes) :
    Finishes live s (Concluded live) (do
      let inner ← openChild s own
      runBlock (execStmt depth inner) .nil body) m := by
  refine finishes_openChild hm hown fun inner m₁ hm₁ => ?_
  refine (finishes_runBlock (fun m st hst hm => hs hm (hbody st hst) ?_) hm₁
    Value.simple_nil).imp fun c m₂ hc => hc.leave
  exact Nat.le_trans (height_le_of_mem hst) hheight

theorem exprFinishes_succ (he : ExprFinishes depth) : ExprFinishes (depth + 1) := by
  intro live s m e hm helem hheight
  have heval (m : Machine) (e : Expr) (hm : Engaged live s m.scopes) (helem : e.Elementary)
      (hheight : e.height ≤ depth) : Finishes live s (Yields live) (evalExpr depth s e) m :=
    he hm helem hheight
  cases e with
  | literal value => exact finishes_pure hm (Value.simple_literal value)
  | group inner => exact he hm helem.2 (Nat.le_of_succ_le_succ hheight)
  | binary symbol left right =>
    obtain ⟨-, hleft, hright⟩ := helem
    obtain ⟨hleft', hright'⟩ := Nat.max_le.1 (Nat.le_of_succ_le_succ hheight)
    unfold evalExpr
    dsimp only
    split
    · exact finishes_binary _ (fun m hm => he hm hleft hleft') (fun m hm => he hm hright hright') hm
    · exact (he hm hleft hleft').bind fun _ m₁ _ hm₁ _ =>
        (he hm₁ hright hright').bind fun _ _ _ _ _ => finishes_fail _
  | var name =>
    refine (finishes_still hm (keeps_lookup s name) (yields_lookup hm s name)).bind
      fun found m₁ _ hm₁ hfound => ?_
    cases found with
    | none => exact finishes_fail _
    | some v => exact finishes_pure hm₁ (hfound v rfl)
  | property receiver name =>
    refine (he hm helem.2 (Nat.le_of_succ_le_succ hheight)).bind fun v m₁ _ hm₁ _ => ?_
    refine (finishes_still hm₁ (keeps_requireObject v) (ends_requireObject v)).bind
      fun members m₂ _ hm₂ _ => ?_
    exact finishes_still hm₂ (keeps_member members name) (yields_member hm₂ members name)
  | call name args =>
    refine (finishes_still hm (keeps_lookup s name) (yields_lookup hm s name)).bind
      fun found m₁ _ hm₁ hfound => ?_
    cases found with
    | none => exact finishes_fail _
    | some v =>
      refine (finishes_still hm₁ (keeps_requireFunction name v) (ends_requireFunction name v)).bind
        fun f m₂ hspares₂ hm₂ hf => ?_
      subst hf
      refine (finishes_evalArgs heval helem.2 (Nat.le_of_succ_le_succ hheight) hm₂).bind
        fun vs m₃ hspares₃ hm₃ hvs => ?_
      -- The function was looked up before the arguments ran, and they may not have spoiled it.
      exact finishes_call (((hfound _ rfl).keep hspares₂).keep hspares₃) hm₃ hvs
  | methodCall receiver name args =>
    obtain ⟨-, hreceiver, hargs⟩ := helem
    obtain ⟨hreceiver', hargs'⟩ := Nat.max_le.1 (Nat.le_of_succ_le_succ hheight)
    refine (he hm hreceiver hreceiver').bind fun object m₁ _ hm₁ hobject => ?_
    refine (finishes_still hm₁ (keeps_requireObject object) (ends_requireObject object)).bind
      fun members m₂ hspares₂ hm₂ _ => ?_
    refine (finishes_still hm₂ (keeps_member members name) (yields_member hm₂ members name)).bind
      fun v m₃ hspares₃ hm₃ hv => ?_
    refine (finishes_still hm₃ (keeps_requireFunction name v) (ends_requireFunction name v)).bind
      fun f m₄ hspares₄ hm₄ hf => ?_
    subst hf
    refine (finishes_evalArgs heval hargs hargs' hm₄).bind fun vs m₅ hspares₅ hm₅ hvs => ?_
    -- The object is what was there first, and is the first argument as well.
    have hspares := ((hspares₂.trans hspares₃).trans hspares₄).trans hspares₅
    exact finishes_call (hv.keep (hspares₄.trans hspares₅)) hm₅
      (List.forall_mem_cons.2 ⟨hobject.keep hspares, hvs⟩)
  | object name fields methods =>
    obtain ⟨rfl, hfields, -⟩ := helem
    obtain ⟨hfields', -⟩ := Nat.max_le.1 (Nat.le_of_succ_le_succ hheight)
    -- The fields run in a scope of the object's own, with no way out of it to the one around it.
    refine finishes_openRoot hm fun members m₁ hnew hm₁ => ?_
    refine (finishes_execFields (fun m e => he) hfields hfields' hm₁).bind fun _ m₂ _ hm₂ _ => ?_
    exact finishes_pure hm₂ ⟨hm₂.toWorking.object hnew name, rfl⟩
  | misplaced kind => exact finishes_fail _

theorem stmtFinishes_succ (he : ExprFinishes depth) (hs : StmtFinishes depth) :
    StmtFinishes (depth + 1) := by
  intro live s m st hm hst hheight
  obtain ⟨hkind, hall⟩ := hst
  have heval (m : Machine) (e : Expr) (hm : Engaged live s m.scopes) (helem : e.Elementary)
      (hheight : e.height ≤ depth) : Finishes live s (Yields live) (evalExpr depth s e) m :=
    he hm helem hheight
  unfold execStmt
  cases st with
  | letStmt decl =>
    exact (finishes_execLet heval hall (Nat.le_of_succ_le_succ hheight) hm).bind
      fun v m₁ _ hm₁ hv => finishes_pure hm₁ hv
  | defStmt decl => exact hkind.elim
  | ifStmt condition thenBody elseBody =>
    obtain ⟨hcondition, hthen, helse⟩ := hall
    obtain ⟨hcondition', hbodies⟩ := Nat.max_le.1 (Nat.le_of_succ_le_succ hheight)
    obtain ⟨hthen', helse'⟩ := Nat.max_le.1 hbodies
    refine (he hm hcondition hcondition').bind fun v m₁ _ hm₁ _ => ?_
    refine (finishes_still hm₁ (keeps_requireCondition v) (ends_requireCondition v)).bind
      fun holds m₂ _ hm₂ _ => ?_
    cases holds
    · exact finishes_body hs (elementary_of_block helse.1 helse.2) helse' hm₂ Value.simple_noEntries
    · exact finishes_body hs (elementary_of_block hthen.1 hthen.2) hthen' hm₂ Value.simple_noEntries
  | forStmt name iterable body =>
    obtain ⟨hiterable, hbody, hbodyAll⟩ := hall
    obtain ⟨hiterable', hbody'⟩ := Nat.max_le.1 (Nat.le_of_succ_le_succ hheight)
    refine (he hm hiterable hiterable').bind fun v m₁ _ hm₁ hv => ?_
    refine (finishes_still hm₁ (keeps_requireList v) (ends_requireList v)).bind
      fun items m₂ hspares hm₂ hitems => ?_
    subst hitems
    -- Each turn starts over at the depth below, so the number of items does not count.
    refine finishes_runLoop (fun m item hm hitem => ?_) hm₂ fun item hitem =>
      (hv.item hitem).keep hspares
    refine finishes_body hs (elementary_of_block hbody hbodyAll) hbody' hm fun e he => ?_
    obtain rfl := List.mem_singleton.1 he
    exact hitem
  | returnStmt value =>
    exact (finishes_evalOption heval hall (Nat.le_of_succ_le_succ hheight) hm).bind
      fun v m₁ _ hm₁ hv => finishes_pure hm₁ hv
  | exprStmt e =>
    exact (he hm hall (Nat.le_of_succ_le_succ hheight)).bind fun v m₁ _ hm₁ hv => finishes_pure hm₁ hv
  | assignStmt target value =>
    obtain ⟨-, hvalue⟩ := hall
    obtain ⟨-, hvalue'⟩ := Nat.max_le.1 (Nat.le_of_succ_le_succ hheight)
    cases target with
    | var name =>
      refine (finishes_still hm (keeps_requireBound s name) (ends_requireBound s name)).bind
        fun _ m₁ _ hm₁ _ => ?_
      refine (he hm₁ hvalue hvalue').bind fun v m₂ _ hm₂ hv => ?_
      exact (finishes_assign hm₂ hv name).bind fun _ m₃ _ hm₃ hv => finishes_pure hm₃ hv
    | property receiver name => exact hkind.elim
    | _ => exact finishes_fail _
  | misplaced kind => exact finishes_fail _

theorem finishes_of_depth (depth : Nat) : ExprFinishes depth ∧ StmtFinishes depth := by
  induction depth with
  | zero =>
    exact ⟨fun {_ _ _ e} _ _ h => absurd h (Nat.not_le_of_lt e.height_pos),
      fun {_ _ _ st} _ _ h => absurd h (Nat.not_le_of_lt st.height_pos)⟩
  | succ depth ih => exact ⟨exprFinishes_succ ih.1, stmtFinishes_succ ih.1 ih.2⟩

/-- An elementary program finishes at a depth that it is at most as high as. -/
theorem finishes_evaluate {p : Program} (hm : Engaged live s m.scopes) (hp : p.Elementary)
    (hheight : p.height ≤ depth) : Finishes live s (Yields live) (evaluate depth s p) m := by
  obtain ⟨he, hs⟩ := finishes_of_depth depth
  have htop (c : Completion) (m : Machine) (hm : Engaged live s m.scopes) (hc : Concluded live c m) :
      Finishes live s (Yields live) (topLevel c) m := by
    cases c with
    | normal v => exact finishes_pure hm hc
    | returning v => exact finishes_fail _
  cases p with
  | source stmts =>
    refine (finishes_runBlock (fun m st hst hm => hs hm (hp st hst) ?_) hm Value.simple_nil).bind
      fun c m₁ _ hm₁ hc => htop c m₁ hm₁ hc
    exact Nat.le_trans (height_le_of_mem hst) hheight
  | stmt st => exact (hs hm hp hheight).bind fun c m₁ _ hm₁ hc => htop c m₁ hm₁ hc
  | expr e => exact he hm hp hheight

end Evaluation

end ObjectLang
