import ObjectLang.Proofs.Trimming.Steps

/-!
Programs that are trimmed alike run alike. The induction is on the depth of the run that is followed;
the run that follows it may need more depth, for parentheses that the other program does not have.
-/

namespace ObjectLang

namespace Evaluation

section Natives

theorem commutes_unary (f : Native) {run : Value → EvalM Value}
    (hrun : ∀ v, Commutes Value.trim (run v) (run v.trim)) (args : List Value) :
    Commutes Value.trim (f.unary run args) (f.unary run (args.map Value.trim)) := by
  match args with
  | [v] => exact hrun v
  | [] => exact .fail _
  | v :: w :: args =>
    rw [show f.unary run ((v :: w :: args).map Value.trim) = f.unary run (v :: w :: args) by
      simp [Native.unary]]
    exact .fail _

theorem commutes_binaryNative (f : Native) {run : Value → Value → EvalM Value}
    (hrun : ∀ v w, Commutes Value.trim (run v w) (run v.trim w.trim)) (args : List Value) :
    Commutes Value.trim (f.binary run args) (f.binary run (args.map Value.trim)) := by
  match args with
  | [v, w] => exact hrun v w
  | [] | [_] => exact .fail _
  | v :: w :: u :: args =>
    rw [show f.binary run ((v :: w :: u :: args).map Value.trim) =
      f.binary run (v :: w :: u :: args) by simp [Native.binary]]
    exact .fail _

theorem commutes_rangeBound (v : Value) :
    Commutes id (Native.rangeBound v) (Native.rangeBound v.trim) := by
  cases v <;> first | exact .pure rfl | exact .fail _

theorem trim_list (vs : List Value) : (Value.list vs).trim = .list (vs.map Value.trim) := by
  rw [Value.trim, Value.trimAll_eq_map]

theorem map_trim_integersBetween (first last : Int) :
    (Native.integersBetween first last).map Value.trim = Native.integersBetween first last := by
  simp [Native.integersBetween, Value.trim, Function.comp_def]

/-- Native functions see of a function no more than its name. -/
theorem commutes_native (f : Native) (args : List Value) :
    Commutes Value.trim (f.call args) (f.call (args.map Value.trim)) := by
  cases f with
  | debug =>
    refine commutes_unary _ (fun v m => ?_) args
    show EStateM.Result.ok Value.nil (Machine.trim ⟨_, m.output.push (v.inspect m.scopes), _⟩) =
      EStateM.Result.ok Value.nil ⟨_, m.output.push (v.trim.inspect m.scopes.trim), _⟩
    rw [Value.inspect_trim]
    rfl
  | print =>
    refine commutes_unary _ (fun v => ?_) args
    apply (commutes_display v).bind
    intro text
    apply (commutes_writeLine text).bind
    intro _
    exact .pure rfl
  | log =>
    refine commutes_unary _ (fun v => ?_) args
    apply (commutes_display v).bind
    intro text
    apply (commutes_writeLine _).bind
    intro _
    exact .pure rfl
  | list | function => exact .pure (trim_list args)
  | range =>
    refine commutes_binaryNative _ (fun v w => ?_) args
    apply (commutes_rangeBound v).bind
    intro first
    apply (commutes_rangeBound w).bind
    intro last
    exact .pure ((trim_list _).trans (congrArg Value.list (map_trim_integersBetween _ _)))
  | functionAny | functionString =>
    refine commutes_unary _ (fun v => ?_) args
    exact .pure rfl
  | method => exact .pure ((trim_list _).trans (congrArg Value.list List.map_tail))
  | methodAny | methodString =>
    refine commutes_binaryNative _ (fun _ v => ?_) args
    exact .pure rfl

end Natives

section Parts

/-! The parts of a program around expressions and statements, given how these run. -/

/-- Expressions that are trimmed alike have followed values. -/
def ExprsFollow (eval : Expr → EvalM Value) (eval' : Nat → Expr → EvalM Value) : Prop :=
  ∀ e e', e.trim = e'.trim → Follows Value.trim (eval e) fun depth => eval' depth e'

/-- Blocks that are trimmed alike are followed in their runs. -/
def BodiesFollow (exec : ScopeId → Stmt → EvalM Completion)
    (exec' : Nat → ScopeId → Stmt → EvalM Completion) : Prop :=
  ∀ s {stmts stmts'}, trimBlock stmts = trimBlock stmts' →
    Follows Completion.trim (runBlock (exec s) .nil stmts)
      fun depth => runBlock (exec' depth s) .nil stmts'

variable {eval : Expr → EvalM Value} {eval' : Nat → Expr → EvalM Value} {s : ScopeId}
  {exec : ScopeId → Stmt → EvalM Completion} {exec' : Nat → ScopeId → Stmt → EvalM Completion}

theorem follows_evalArgs
    (heval : ExprsFollow eval eval') {es es' : List Expr} (h : trimArgs es = trimArgs es') :
    Follows (List.map Value.trim) (evalArgs eval es) fun depth => evalArgs (eval' depth) es' := by
  induction es generalizing es' with
  | nil =>
    cases es' with
    | nil => exact .pure rfl
    | cons e' es' => cases h
  | cons e es ih =>
    cases es' with
    | nil => cases h
    | cons e' es' =>
      simp only [trimArgs, List.cons.injEq] at h
      apply (heval e e' h.1).bind
      intro v v' hv
      apply (ih h.2).bind
      intro vs vs' hvs
      exact .pure (by simp [hv, hvs])

theorem follows_evalOption
    (heval : ExprsFollow eval eval') {value value' : Option Expr} (h : trimOption value = trimOption value') :
    Follows Value.trim (evalOption eval value) fun depth => evalOption (eval' depth) value' := by
  cases value with
  | none =>
    cases value' with
    | none => exact .pure rfl
    | some e' => cases h
  | some e =>
    cases value' with
    | none => cases h
    | some e' => exact heval e e' (Option.some.inj h)

theorem follows_define {name : String} {v v' : Value} (h : v.trim = v'.trim) :
    Follows id (define s name v) fun _ => define s name v' :=
  .of_commutes (commutes_define s name v) (h ▸ commutes_define s name v')

theorem follows_execLet
    (heval : ExprsFollow eval eval') {d d' : LetDecl} (h : d.trim = d'.trim) :
    Follows Value.trim (execLet eval s d) fun depth => execLet (eval' depth) s d' := by
  obtain ⟨name, typeName, value⟩ := d
  obtain ⟨name', typeName', value'⟩ := d'
  simp only [LetDecl.trim, LetDecl.mk.injEq, true_and] at h
  obtain ⟨rfl, hvalue⟩ := h
  apply (Follows.of_commutes (commutes_requireFresh s name) (commutes_requireFresh s name)).bind
  intro _ _ _
  apply (follows_evalOption heval hvalue).bind
  intro v v' hv
  apply (follows_define hv).bind
  intro _ _ _
  exact .pure hv

theorem follows_execFields
    (heval : ExprsFollow eval eval') {ds ds' : List LetDecl} (h : trimFields ds = trimFields ds') :
    Follows id (execFields eval s ds) fun depth => execFields (eval' depth) s ds' := by
  induction ds generalizing ds' with
  | nil =>
    cases ds' with
    | nil => exact .pure rfl
    | cons d' ds' => cases h
  | cons d ds ih =>
    cases ds' with
    | nil => cases h
    | cons d' ds' =>
      simp only [trimFields, List.cons.injEq] at h
      apply (follows_execLet heval h.1).bind
      intro _ _ _
      exact ih h.2

theorem ofDecl_trim (isMethod : Bool) (d : DefDecl) :
    Closure.ofDecl s isMethod d.trim = (Closure.ofDecl s isMethod d).map Closure.trim := by
  obtain ⟨name, params, annotations, returnType, body⟩ := d
  unfold DefDecl.trim Closure.ofDecl
  dsimp only
  split <;> rfl

/-- Definitions need no depth, and their bodies are not looked at. -/
theorem commutes_execDef (isMethod : Bool) (d : DefDecl) :
    Commutes Value.trim (execDef s isMethod d) (execDef s isMethod d.trim) := by
  have hname : d.trim.name = d.name := by cases d; rfl
  unfold execDef
  rw [hname, ofDecl_trim]
  apply (commutes_requireFresh s d.name).bind
  intro _
  cases Closure.ofDecl s isMethod d with
  | ok c => exact (commutes_define s d.name _).bind fun _ => .pure rfl
  | error param => exact .fail _

theorem commutes_execMethods (ds : List DefDecl) :
    Commutes id (execMethods s ds) (execMethods s (trimMethods ds)) := by
  induction ds with
  | nil => exact .pure rfl
  | cons d ds ih => exact (commutes_execDef true d).bind fun _ => ih

theorem follows_runLoop {body : Value → EvalM Completion} {body' : Nat → Value → EvalM Completion}
    (hbody : ∀ v v', v.trim = v'.trim →
      Follows Completion.trim (body v) fun depth => body' depth v')
    {items items' : List Value} (h : items.map Value.trim = items'.map Value.trim) :
    Follows Completion.trim (runLoop body items) fun depth => runLoop (body' depth) items' := by
  induction items generalizing items' with
  | nil =>
    cases items' with
    | nil => exact .pure rfl
    | cons v' vs' => cases h
  | cons v vs ih =>
    cases items' with
    | nil => cases h
    | cons v' vs' =>
      simp only [List.map_cons, List.cons.injEq] at h
      apply (hbody v v' h.1).bind
      intro c c' hc
      obtain ⟨v, v', rfl, rfl, -⟩ | ⟨v, v', rfl, rfl, hv⟩ := Completion.of_trim hc
      · exact ih h.2
      · exact .pure hc

theorem follows_binary (op : Operator) {left right : EvalM Value} {left' right' : Nat → EvalM Value}
    (hl : Follows Value.trim left left') (hr : Follows Value.trim right right') :
    Follows Value.trim (binary op left right) fun depth => binary op (left' depth) (right' depth) := by
  have hoperand {v v' : Value} (h : v.trim = v'.trim) :
      Follows id (requireOperand op v) fun _ => requireOperand op v' :=
    .of_commutes (commutes_requireOperand op v) (h ▸ commutes_requireOperand op v')
  have hlogical : Follows Value.trim (logical op right) fun depth => logical op (right' depth) := by
    apply hr.bind
    intro v v' hv
    apply (hoperand hv).bind
    rintro b _ rfl
    exact .pure rfl
  have hboth {f : Value → Value → EvalM Value}
      (hf : ∀ a b, Commutes Value.trim (f a b) (f a.trim b.trim)) :
      Follows Value.trim (left >>= fun a => right >>= f a) fun depth =>
        left' depth >>= fun a => right' depth >>= f a := by
    apply hl.bind
    intro a a' ha
    apply hr.bind
    intro b b' hb
    exact .of_commutes (hf a b) (ha ▸ hb ▸ hf a' b')
  have hordering {answer : Value → Value → Option Bool}
      (hanswer : ∀ a b, answer a.trim b.trim = answer a b) :
      Follows Value.trim (left >>= fun a => right >>= fun b => ordering op (answer a b) a b)
        fun depth => left' depth >>= fun a => right' depth >>= fun b =>
          ordering op (answer a b) a b := by
    refine hboth fun a b => ?_
    rw [hanswer]
    exact commutes_ordering op _ a b
  cases op with
  | and | or =>
    apply hl.bind
    intro v v' hv
    apply (hoperand hv).bind
    rintro b _ rfl
    cases b
    all_goals first | exact hlogical | exact .pure rfl
  | add => exact hboth fun a b => commutes_plus a b
  | sub | mul => exact hboth fun a b => commutes_arithmetic _ _ _ a b
  | div => exact hboth fun a b => commutes_divide a b
  | eq | ne =>
    refine hboth fun a b => (commutes_equal a b).bind fun answer => ?_
    exact .pure rfl
  | lt => exact hordering (Value.less?_trim · ·)
  | le => exact hordering (Value.lessEq?_trim · ·)
  | gt => exact hordering fun a b => Value.less?_trim b a
  | ge => exact hordering fun a b => Value.lessEq?_trim b a

theorem follows_enter (hexec : BodiesFollow exec exec')
    {c c' : Closure} (hc : c.trim = c'.trim) {args args' : List Value}
    (hargs : args.map Value.trim = args'.map Value.trim) :
    Follows Value.trim (enter exec c s args) fun depth => enter (exec' depth) c' s args' := by
  obtain ⟨name, params, hparams, body, scope, isMethod⟩ := c
  obtain ⟨name', params', hparams', body', scope', isMethod'⟩ := c'
  simp only [Closure.trim, Closure.mk.injEq] at hc
  obtain ⟨rfl, rfl, hbody, rfl, rfl⟩ := hc
  have hlength : args.length = args'.length := by simpa using congrArg List.length hargs
  have hown (vs : List Value) : Commutes id (openChild s (Bindings.zip params vs hparams))
      (openChild s (Bindings.zip params (vs.map Value.trim) hparams)) := by
    rw [← Bindings.map_zip]
    exact commutes_openChild s _
  unfold enter
  dsimp only
  rw [hlength]
  apply (Follows.of_commutes (hown args) (hargs ▸ hown args')).bind
  rintro inner _ rfl
  apply (Follows.of_commutes (commutes_report _) (commutes_report _)).bind
  intro _ _ _
  apply (hexec inner hbody).bind
  intro r r' hr
  obtain ⟨v, v', rfl, rfl, -⟩ | ⟨v, v', rfl, rfl, hv⟩ := Completion.of_trim hr
  · exact .pure rfl
  · apply (Follows.of_commutes (commutes_report _) (commutes_report _)).bind
    intro _ _ _
    exact .pure hv

theorem follows_callClosure (hexec : BodiesFollow exec exec')
    {c c' : Closure} (hc : c.trim = c'.trim) {args args' : List Value}
    (hargs : args.map Value.trim = args'.map Value.trim) :
    Follows Value.trim (callClosure exec c args) fun depth => callClosure (exec' depth) c' args' := by
  have hname : c'.name = c.name := (congrArg Closure.name hc).symm
  have hparams : c'.params = c.params := (congrArg Closure.params hc).symm
  have hmethod : c'.isMethod = c.isMethod := (congrArg Closure.isMethod hc).symm
  have hscope : c'.scope = c.scope := (congrArg Closure.scope hc).symm
  have hlength : args'.length = args.length := by simpa using (congrArg List.length hargs).symm
  unfold callClosure
  rw [hname, hparams, hmethod, hscope, hlength]
  split
  · cases args with
    | nil =>
      cases args' with
      | nil => exact .fail _
      | cons receiver' args' => cases hargs
    | cons receiver args =>
      cases args' with
      | nil => cases hargs
      | cons receiver' args' =>
        simp only [List.map_cons, List.cons.injEq] at hargs
        obtain ⟨hreceiver, hargs⟩ := hargs
        have hown (v : Value) : Commutes id (openChild c.scope (Bindings.singleton selfName v))
            (openChild c.scope (Bindings.singleton selfName v.trim)) := commutes_openChild _ _
        have hrest : args'.length = args.length := by simpa using hlength
        dsimp only
        rw [hrest]
        split
        · apply (Follows.of_commutes (hown receiver) (hreceiver ▸ hown receiver')).bind
          rintro scope _ rfl
          exact follows_enter hexec hc hargs
        · exact .fail _
  · split
    · exact follows_enter hexec hc hargs
    · exact .fail _

theorem follows_call (hexec : BodiesFollow exec exec')
    {f f' : Callable} (hf : f.trim = f'.trim) {args args' : List Value}
    (hargs : args.map Value.trim = args'.map Value.trim) :
    Follows Value.trim (call exec f args) fun depth => call (exec' depth) f' args' := by
  cases f with
  | native f =>
    cases f' with
    | native f' =>
      obtain rfl := Callable.native.inj hf
      exact .of_commutes (commutes_native f args) (hargs ▸ commutes_native f args')
    | _ => cases hf
  | closure c =>
    cases f' with
    | closure c' => exact follows_callClosure hexec (Callable.closure.inj hf) hargs
    | _ => cases hf
  | named name =>
    cases f' with
    | named name' => exact .pure rfl
    | _ => cases hf

end Parts

/-- Expressions are followed in their runs at a given depth. -/
def ExprFollows (depth : Nat) : Prop := ∀ s, ExprsFollow (evalExpr depth s) (evalExpr · s)

/-- Statements are followed in their runs at a given depth. -/
def StmtFollows (depth : Nat) : Prop :=
  ∀ s st st', st.trim = st'.trim →
    Follows Completion.trim (execStmt depth s st) fun depth' => execStmt depth' s st'

/-- Parentheses only need more depth. -/
theorem follows_of_core {s : ScopeId} {x : EvalM Value} (e : Expr)
    (h : Follows Value.trim x fun depth => evalExpr depth s e.core) :
    Follows Value.trim x fun depth => evalExpr depth s e := by
  match e with
  | .group inner => exact .deepen (follows_of_core inner h)
  | .literal _ | .binary .. | .var _ | .property .. | .call .. | .methodCall .. | .object ..
  | .misplaced _ => exact h

theorem runBlock_return {depth : Nat} {s : ScopeId} {last : Value} {st : Stmt} {sts : List Stmt}
    (h : st.isReturn = true) : runBlock (execStmt depth s) last (st :: sts) = execStmt depth s st := by
  cases st with
  | returnStmt value =>
    cases depth with
    | zero => rfl
    | succ depth =>
      funext m
      simp only [runBlock, execStmt, bind_apply]
      cases evalOption (evalExpr depth s) value m <;> rfl
  | _ => cases h

theorem follows_runBlock {depth : Nat} (hs : StmtFollows depth) (s : ScopeId) {last last' : Value}
    (hlast : last.trim = last'.trim) {stmts stmts' : List Stmt}
    (h : trimBlock stmts = trimBlock stmts') :
    Follows Completion.trim (runBlock (execStmt depth s) last stmts)
      fun depth' => runBlock (execStmt depth' s) last' stmts' := by
  induction stmts generalizing last last' stmts' with
  | nil =>
    cases stmts' with
    | nil => exact .pure (congrArg Completion.normal hlast)
    | cons st' sts' => cases h
  | cons st sts ih =>
    cases stmts' with
    | nil => cases h
    | cons st' sts' =>
      simp only [trimBlock, List.cons.injEq] at h
      obtain ⟨hst, hsts⟩ := h
      have hreturn : st'.isReturn = st.isReturn := by
        rw [← st.isReturn_trim, hst, st'.isReturn_trim]
      cases hr : st.isReturn with
      | true =>
        -- Nothing after the two statements is reached, so it does not matter what it is.
        simp only [runBlock_return hr, runBlock_return (hreturn.trans hr)]
        exact hs s st st' hst
      | false =>
        simp only [hreturn, hr, Bool.false_eq_true, if_false] at hsts
        apply (hs s st st' hst).bind
        intro c c' hc
        obtain ⟨v, v', rfl, rfl, hv⟩ | ⟨v, v', rfl, rfl, -⟩ := Completion.of_trim hc
        · exact ih hv hsts
        · exact .pure hc

theorem bodiesFollow_of_stmtFollows {depth : Nat} (hs : StmtFollows depth) :
    BodiesFollow (execStmt depth) execStmt := fun s _ _ h => follows_runBlock hs s rfl h

theorem follows_lookup (s : ScopeId) (name : String) :
    Follows (Option.map Value.trim) (lookup s name) fun _ => lookup s name :=
  .of_commutes (commutes_lookup s name) (commutes_lookup s name)

theorem follows_requireObject {v v' : Value} (h : v.trim = v'.trim) :
    Follows id (requireObject v) fun _ => requireObject v' :=
  .of_commutes (commutes_requireObject v) (h ▸ commutes_requireObject v')

theorem follows_requireFunction {name : String} {v v' : Value} (h : v.trim = v'.trim) :
    Follows Callable.trim (requireFunction name v) fun _ => requireFunction name v' :=
  .of_commutes (commutes_requireFunction name v) (h ▸ commutes_requireFunction name v')

/-- A value that is looked up is trimmed alike on both sides, so what is done with it decides. -/
theorem follows_found {β : Type} {img : α → β} {e : EvalError} {f : Value → EvalM α}
    {f' : Nat → Value → EvalM α} (s : ScopeId) (name : String)
    (hf : ∀ v v', v.trim = v'.trim → Follows img (f v) fun depth => f' depth v') :
    Follows img
      (do
        match ← lookup s name with
        | some v => f v
        | none => fail e)
      (fun depth => do
        match ← lookup s name with
        | some v => f' depth v
        | none => fail e) := by
  apply (follows_lookup s name).bind
  intro found found' hfound
  cases found with
  | none =>
    cases found' with
    | none => exact .fail e
    | some v' => cases hfound
  | some v =>
    cases found' with
    | none => cases hfound
    | some v' => exact hf v v' (Option.some.inj hfound)

/-- Expressions without parentheses around them are of one form when they are trimmed alike. -/
theorem follows_core {depth : Nat} (he : ExprFollows depth) (hs : StmtFollows depth) (s : ScopeId)
    {e e' : Expr} (hcore : ∀ inner, e ≠ .group inner) (hcore' : ∀ inner, e' ≠ .group inner)
    (h : e.trim = e'.trim) :
    Follows Value.trim (evalExpr (depth + 1) s e) fun depth' => evalExpr (depth' + 1) s e' := by
  have hbodies := bodiesFollow_of_stmtFollows hs
  cases e with
  | group inner => exact (hcore _ rfl).elim
  | literal value =>
    cases e' with
    | literal value' =>
      obtain rfl := Expr.literal.inj h
      exact .pure rfl
    | group inner => exact (hcore' _ rfl).elim
    | _ => cases h
  | binary symbol left right =>
    cases e' with
    | binary symbol' left' right' =>
      obtain ⟨rfl, hl, hr⟩ := Expr.binary.inj h
      simp only [evalExpr]
      cases Operator.ofSymbol? symbol with
      | some op => exact follows_binary op (he s _ _ hl) (he s _ _ hr)
      | none =>
        apply (he s _ _ hl).bind
        intro _ _ _
        apply (he s _ _ hr).bind
        intro _ _ _
        exact .fail _
    | group inner => exact (hcore' _ rfl).elim
    | _ => cases h
  | var name =>
    cases e' with
    | var name' =>
      obtain rfl := Expr.var.inj h
      exact follows_found s name fun _ _ hv => .pure hv
    | group inner => exact (hcore' _ rfl).elim
    | _ => cases h
  | property receiver name =>
    cases e' with
    | property receiver' name' =>
      obtain ⟨hr, rfl⟩ := Expr.property.inj h
      apply (he s _ _ hr).bind
      intro v v' hv
      apply (follows_requireObject hv).bind
      rintro members _ rfl
      exact .of_commutes (commutes_member members name) (commutes_member members name)
    | group inner => exact (hcore' _ rfl).elim
    | _ => cases h
  | call name args =>
    cases e' with
    | call name' args' =>
      obtain ⟨rfl, hargs⟩ := Expr.call.inj h
      apply follows_found s name
      intro v v' hv
      apply (follows_requireFunction hv).bind
      intro f f' hf
      apply (follows_evalArgs (he s) hargs).bind
      intro vs vs' hvs
      exact follows_call hbodies hf hvs
    | group inner => exact (hcore' _ rfl).elim
    | _ => cases h
  | methodCall receiver name args =>
    cases e' with
    | methodCall receiver' name' args' =>
      obtain ⟨hr, rfl, hargs⟩ := Expr.methodCall.inj h
      apply (he s _ _ hr).bind
      intro object object' hobject
      apply (follows_requireObject hobject).bind
      rintro members _ rfl
      apply (Follows.of_commutes (commutes_member members name) (commutes_member members name)).bind
      intro v v' hv
      apply (follows_requireFunction hv).bind
      intro f f' hf
      apply (follows_evalArgs (he s) hargs).bind
      intro vs vs' hvs
      exact follows_call hbodies hf (by simp [hobject, hvs])
    | group inner => exact (hcore' _ rfl).elim
    | _ => cases h
  | object name fields methods =>
    cases e' with
    | object name' fields' methods' =>
      obtain ⟨rfl, hfields, hmethods⟩ := Expr.object.inj h
      apply (Follows.of_commutes commutes_openRoot commutes_openRoot).bind
      rintro members _ rfl
      apply (follows_execFields (he members) hfields).bind
      intro _ _ _
      apply (Follows.of_commutes (commutes_execMethods methods)
        (hmethods ▸ commutes_execMethods methods')).bind
      intro _ _ _
      exact .pure rfl
    | group inner => exact (hcore' _ rfl).elim
    | _ => cases h
  | misplaced kind =>
    cases e' with
    | misplaced kind' =>
      obtain rfl := Expr.misplaced.inj h
      exact .fail _
    | group inner => exact (hcore' _ rfl).elim
    | _ => cases h

theorem exprFollows_succ {depth : Nat} (he : ExprFollows depth) (hs : StmtFollows depth) :
    ExprFollows (depth + 1) := by
  intro s e e' h
  have hcore : e.trim = e'.core.trim := h.trans e'.trim_core.symm
  cases e with
  | group inner => exact he s inner e' h
  | _ =>
    refine follows_of_core e' (.deepen (follows_core he hs s ?_ e'.core_ne_group hcore))
    exact fun _ => nofun

/-- Only variables and members can be assigned to. -/
theorem execStmt_assign {depth : Nat} {s : ScopeId} {target value : Expr}
    (hvar : ∀ name, target ≠ .var name) (hproperty : ∀ receiver name, target ≠ .property receiver name) :
    execStmt (depth + 1) s (.assignStmt target value) = fail (.invalidTarget target.kind) := by
  cases target with
  | var name => exact (hvar name rfl).elim
  | property receiver name => exact (hproperty receiver name rfl).elim
  | _ => rfl

theorem follows_assign {depth : Nat} (he : ExprFollows depth) (s : ScopeId)
    {target target' value value' : Expr} (hkind : target.kind = target'.kind)
    (htarget : target.trim = target'.trim) (hvalue : value.trim = value'.trim) :
    Follows Completion.trim (execStmt (depth + 1) s (.assignStmt target value))
      fun depth' => execStmt (depth' + 1) s (.assignStmt target' value') := by
  have hassign (t : ScopeId) (name : String) {v v' : Value} (hv : v.trim = v'.trim) :
      Follows id (assign t name v) fun _ => assign t name v' :=
    .of_commutes (commutes_assign t name v) (hv ▸ commutes_assign t name v')
  cases target with
  | var name =>
    cases target' with
    | var name' =>
      obtain rfl := Expr.var.inj htarget
      apply (Follows.of_commutes (commutes_requireBound s name) (commutes_requireBound s name)).bind
      intro _ _ _
      apply (he s _ _ hvalue).bind
      intro v v' hv
      apply (hassign s name hv).bind
      intro _ _ _
      exact .pure (congrArg Completion.normal hv)
    | group inner => cases hkind
    | _ => cases htarget
  | property receiver name =>
    cases target' with
    | property receiver' name' =>
      obtain ⟨hr, rfl⟩ := Expr.property.inj htarget
      apply (he s _ _ hr).bind
      intro object object' hobject
      apply (follows_requireObject hobject).bind
      rintro members _ rfl
      apply (Follows.of_commutes (commutes_requireMember members name)
        (commutes_requireMember members name)).bind
      intro _ _ _
      apply (he s _ _ hvalue).bind
      intro v v' hv
      apply (hassign members name hv).bind
      intro _ _ _
      exact .pure (congrArg Completion.normal hv)
    | group inner => cases hkind
    | _ => cases htarget
  | _ =>
    have hfail {depth' : Nat} : execStmt (depth' + 1) s (.assignStmt target' value') =
        fail (.invalidTarget target'.kind) := by
      refine execStmt_assign ?_ ?_
      · rintro name rfl
        first | cases htarget | cases hkind
      · rintro receiver name rfl
        first | cases htarget | cases hkind
    simp only [hfail]
    rw [← hkind]
    exact .fail _

theorem stmtFollows_succ {depth : Nat} (he : ExprFollows depth) (hs : StmtFollows depth) :
    StmtFollows (depth + 1) := by
  intro s st st' h
  apply Follows.deepen
  cases st with
  | letStmt decl =>
    cases st' with
    | letStmt decl' =>
      apply (follows_execLet (he s) (Stmt.letStmt.inj h)).bind
      intro v v' hv
      exact .pure (congrArg Completion.normal hv)
    | assignStmt target value => cases target <;> cases h
    | _ => cases h
  | defStmt decl =>
    cases st' with
    | defStmt decl' =>
      have hd : decl.trim = decl'.trim := Stmt.defStmt.inj h
      apply (Follows.of_commutes (commutes_execDef false decl)
        (hd ▸ commutes_execDef false decl')).bind
      intro v v' hv
      exact .pure (congrArg Completion.normal hv)
    | assignStmt target value => cases target <;> cases h
    | _ => cases h
  | ifStmt condition thenBody elseBody =>
    cases st' with
    | ifStmt condition' thenBody' elseBody' =>
      obtain ⟨hc, ht, hf⟩ := Stmt.ifStmt.inj h
      apply (he s _ _ hc).bind
      intro v v' hv
      apply (Follows.of_commutes (commutes_requireCondition v)
        (hv ▸ commutes_requireCondition v')).bind
      rintro holds _ rfl
      apply (Follows.of_commutes (commutes_openChild s ∅) (commutes_openChild s ∅)).bind
      rintro inner _ rfl
      cases holds with
      | true => exact follows_runBlock hs inner rfl ht
      | false => exact follows_runBlock hs inner rfl hf
    | assignStmt target value => cases target <;> cases h
    | _ => cases h
  | forStmt name iterable body =>
    cases st' with
    | forStmt name' iterable' body' =>
      obtain ⟨rfl, hi, hb⟩ := Stmt.forStmt.inj h
      apply (he s _ _ hi).bind
      intro v v' hv
      apply (Follows.of_commutes (commutes_requireList v) (hv ▸ commutes_requireList v')).bind
      intro items items' hitems
      refine follows_runLoop (fun item item' hitem => ?_) hitems
      have hown (v : Value) : Commutes id (openChild s (Bindings.singleton name v))
          (openChild s (Bindings.singleton name v.trim)) := commutes_openChild s _
      apply (Follows.of_commutes (hown item) (hitem ▸ hown item')).bind
      rintro inner _ rfl
      exact follows_runBlock hs inner rfl hb
    | assignStmt target value => cases target <;> cases h
    | _ => cases h
  | returnStmt value =>
    cases st' with
    | returnStmt value' =>
      apply (follows_evalOption (he s) (Stmt.returnStmt.inj h)).bind
      intro v v' hv
      exact .pure (congrArg Completion.returning hv)
    | assignStmt target value => cases target <;> cases h
    | _ => cases h
  | exprStmt e =>
    cases st' with
    | exprStmt e' =>
      apply (he s _ _ (Stmt.exprStmt.inj h)).bind
      intro v v' hv
      exact .pure (congrArg Completion.normal hv)
    | assignStmt target value => cases target <;> cases h
    | _ => cases h
  | assignStmt target value =>
    cases st' with
    | assignStmt target' value' =>
      obtain ⟨hkind, htarget, hvalue⟩ := Stmt.assign_of_trim h
      exact follows_assign he s hkind htarget hvalue
    | _ => cases target <;> cases h
  | misplaced kind =>
    cases st' with
    | misplaced kind' =>
      obtain rfl := Stmt.misplaced.inj h
      exact .fail _
    | assignStmt target value => cases target <;> cases h
    | _ => cases h

theorem follows_of_depth (depth : Nat) : ExprFollows depth ∧ StmtFollows depth := by
  induction depth with
  | zero => exact ⟨fun _ _ _ _ => .tooDeep, fun _ _ _ _ => .tooDeep⟩
  | succ depth ih => exact ⟨exprFollows_succ ih.1 ih.2, stmtFollows_succ ih.1 ih.2⟩

theorem follows_topLevel {c c' : Completion} (h : c.trim = c'.trim) :
    Follows Value.trim (topLevel c) fun _ => topLevel c' := by
  obtain ⟨v, v', rfl, rfl, hv⟩ | ⟨v, v', rfl, rfl, -⟩ := Completion.of_trim h
  · exact .pure hv
  · exact .fail _

/-- Programs that are trimmed alike are followed in their runs. -/
theorem evaluate_follows (depth : Nat) (s : ScopeId) {p p' : Program} (h : p.trim = p'.trim) :
    Follows Value.trim (evaluate depth s p) fun depth' => evaluate depth' s p' := by
  obtain ⟨he, hs⟩ := follows_of_depth depth
  cases p with
  | source stmts =>
    cases p' with
    | source stmts' =>
      apply (follows_runBlock hs s rfl (Program.source.inj h)).bind
      intro c c' hc
      exact follows_topLevel hc
    | _ => cases h
  | stmt st =>
    cases p' with
    | stmt st' =>
      apply (hs s _ _ (Program.stmt.inj h)).bind
      intro c c' hc
      exact follows_topLevel hc
    | _ => cases h
  | expr e =>
    cases p' with
    | expr e' => exact he s _ _ (Program.expr.inj h)
    | _ => cases h

end Evaluation

end ObjectLang
