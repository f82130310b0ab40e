import ObjectLang.Evaluation.Rules
import ObjectLang.Proofs.Shift.Steps

/-!
Programs without the hidden names run alike in the two runs. The induction is on the depth, which is
the same in both.
-/

namespace ObjectLang.Evaluation

open Bindings

variable {N : Shift} {T : TwoRuns N} {s : ScopeId} {v v' : Value} {vs vs' : List Value}

section Natives

theorem mirrors_unary (f : Native) {run : Value → EvalM Value}
    (hrun : ∀ v v', v.Moved N v' → Mirrors T (Value.Moved N) (run v) (run v'))
    (h : List.Forall₂ (Value.Moved N) vs vs') :
    Mirrors T (Value.Moved N) (f.unary run vs) (f.unary run vs') := by
  match h with
  | .nil => exact .fail _
  | .cons hv .nil => exact hrun _ _ hv
  | .cons hv (.cons hw hs) =>
    rw [Native.unary, Native.unary, List.length_cons, List.length_cons, hs.length_eq]
    · exact .fail _
    · simp
    · simp

theorem mirrors_binaryNative (f : Native) {run : Value → Value → EvalM Value}
    (hrun : ∀ v v' w w', v.Moved N v' → w.Moved N w' →
      Mirrors T (Value.Moved N) (run v w) (run v' w'))
    (h : List.Forall₂ (Value.Moved N) vs vs') :
    Mirrors T (Value.Moved N) (f.binary run vs) (f.binary run vs') := by
  match h with
  | .nil => exact .fail _
  | .cons hv .nil => exact .fail _
  | .cons hv (.cons hw .nil) => exact hrun _ _ _ _ hv hw
  | .cons hv (.cons hw (.cons hu hs)) =>
    simp only [Native.binary, List.length_cons, hs.length_eq]
    exact .fail _

theorem mirrors_rangeBound (hv : v.Moved N v') :
    Mirrors T (· = ·) (Native.rangeBound v) (Native.rangeBound v') := by
  cases hv <;> first | exact .fail _ | exact .pure rfl

theorem moved_integersBetween (first last : Int) :
    List.Forall₂ (Value.Moved N) (Native.integersBetween first last)
      (Native.integersBetween first last) := by
  refine List.forall₂_same.2 fun v hv => ?_
  obtain ⟨k, -, rfl⟩ := List.mem_map.1 hv
  exact .integer _

/-- Native functions show nothing of the numbers of scopes. -/
theorem mirrors_native (f : Native) (h : List.Forall₂ (Value.Moved N) vs vs') :
    Mirrors T (Value.Moved N) (f.call vs) (f.call vs') := by
  cases f with
  | debug =>
    refine mirrors_unary _ (fun v v' hv m m' hm => ?_) h
    show EndAlike T (Value.Moved N) ((writeLine (v.inspect m.scopes) >>= fun _ => pure Value.nil) m)
      ((writeLine (v'.inspect m'.scopes) >>= fun _ => pure Value.nil) m')
    rw [← Value.inspect_moved hm.scopes v hv]
    exact ((mirrors_writeLine _).bind fun _ _ _ => .pure .nil) m m' hm
  | print =>
    refine mirrors_unary _ (fun v v' hv => ?_) h
    apply (mirrors_display hv).bind
    rintro text _ rfl
    apply (mirrors_writeLine text).bind
    intro _ _ _
    exact .pure .nil
  | log =>
    refine mirrors_unary _ (fun v v' hv => ?_) h
    apply (mirrors_display hv).bind
    rintro text _ rfl
    apply (mirrors_writeLine _).bind
    intro _ _ _
    exact .pure hv
  | list | function => exact .pure (.list h)
  | range =>
    refine mirrors_binaryNative _ (fun v v' w w' hv hw => ?_) h
    apply (mirrors_rangeBound hv).bind
    rintro first _ rfl
    apply (mirrors_rangeBound hw).bind
    rintro last _ rfl
    exact .pure (.list (moved_integersBetween first last))
  | functionAny | functionString => exact mirrors_unary _ (fun _ _ hv => .pure hv) h
  | method =>
    refine .pure (.list ?_)
    cases h with
    | nil => exact .nil
    | cons _ hs => exact hs
  | methodAny | methodString => exact mirrors_binaryNative _ (fun _ _ _ _ _ hw => .pure hw) h

end Natives

section Parts

/-! The parts of a program around expressions and statements, given how these run. -/

/-- Expressions without the hidden names have values that go together. -/
def ExprsMirror (T : TwoRuns N) (eval eval' : Expr → EvalM Value) : Prop :=
  ∀ e, e.Avoids N.hidden → Mirrors T (Value.Moved N) (eval e) (eval' e)

/-- Statements without the hidden names run alike in scopes that go together. -/
def StmtsMirror (T : TwoRuns N) (exec : ScopeId → Stmt → EvalM Completion) : Prop :=
  ∀ s st, st.Avoids N.hidden →
    Mirrors T (Completion.Moved N) (exec s st) (exec (N.move s) st)

variable {eval eval' : Expr → EvalM Value} {exec : ScopeId → Stmt → EvalM Completion}

theorem mirrors_evalArgs (he : ExprsMirror T eval eval') (es : List Expr)
    (hes : ArgsAvoid N.hidden es) :
    Mirrors T (List.Forall₂ (Value.Moved N)) (evalArgs eval es) (evalArgs eval' es) := by
  induction es with
  | nil => exact .pure .nil
  | cons e es ih =>
    apply (he e hes.1).bind
    intro v v' hv
    apply (ih hes.2).bind
    intro vs vs' hvs
    exact .pure (.cons hv hvs)

theorem mirrors_evalOption (he : ExprsMirror T eval eval') (value : Option Expr)
    (hvalue : OptionAvoids N.hidden value) :
    Mirrors T (Value.Moved N) (evalOption eval value) (evalOption eval' value) := by
  cases value with
  | none => exact .pure .nil
  | some e => exact he e hvalue

theorem mirrors_execLet (he : ExprsMirror T eval eval') (s : ScopeId) (d : LetDecl)
    (hd : d.Avoids N.hidden) :
    Mirrors T (Value.Moved N) (execLet eval s d) (execLet eval' (N.move s) d) := by
  obtain ⟨name, typeName, value⟩ := d
  apply (mirrors_requireFresh hd.1 s).bind
  intro _ _ _
  apply (mirrors_evalOption he value hd.2).bind
  intro v v' hv
  apply (mirrors_define hd.1 s hv).bind
  intro _ _ _
  exact .pure hv

theorem mirrors_execFields (he : ExprsMirror T eval eval') (s : ScopeId) (ds : List LetDecl)
    (hds : FieldsAvoid N.hidden ds) :
    Mirrors T (fun _ _ => True) (execFields eval s ds) (execFields eval' (N.move s) ds) := by
  induction ds with
  | nil => exact .pure trivial
  | cons d ds ih =>
    apply (mirrors_execLet he s d hds.1).bind
    intro _ _ _
    exact ih hds.2

theorem ofDecl_move (s : ScopeId) (isMethod : Bool) (d : DefDecl) :
    Closure.ofDecl (N.move s) isMethod d =
      (Closure.ofDecl s isMethod d).map fun c => { c with scope := N.move c.scope } := by
  obtain ⟨name, params, annotations, returnType, body⟩ := d
  unfold Closure.ofDecl
  dsimp only
  split <;> rfl

theorem avoids_of_ofDecl {isMethod : Bool} {d : DefDecl} {c : Closure} (hd : d.Avoids N.hidden)
    (h : Closure.ofDecl s isMethod d = .ok c) : BlockAvoids N.hidden c.body := by
  obtain ⟨name, params, annotations, returnType, body⟩ := d
  unfold Closure.ofDecl at h
  dsimp only at h
  split at h
  · cases h
    exact hd.2.2
  · cases h

theorem mirrors_execDef (s : ScopeId) (isMethod : Bool) (d : DefDecl) (hd : d.Avoids N.hidden) :
    Mirrors T (Value.Moved N) (execDef s isMethod d) (execDef (N.move s) isMethod d) := by
  have hname := hd.name_not_mem
  unfold execDef
  rw [ofDecl_move]
  apply (mirrors_requireFresh hname s).bind
  intro _ _ _
  cases hc : Closure.ofDecl s isMethod d with
  | ok c =>
    have hv : (Value.function (.closure c)).Moved N _ :=
      .function (.closure c (avoids_of_ofDecl hd hc))
    apply (mirrors_define hname s hv).bind
    intro _ _ _
    exact .pure hv
  | error param => exact .fail _

theorem mirrors_execMethods (s : ScopeId) (ds : List DefDecl) (hds : MethodsAvoid N.hidden ds) :
    Mirrors T (fun _ _ => True) (execMethods s ds) (execMethods (N.move s) ds) := by
  induction ds with
  | nil => exact .pure trivial
  | cons d ds ih =>
    apply (mirrors_execDef s true d hds.1).bind
    intro _ _ _
    exact ih hds.2

theorem mirrors_runBlock (h : StmtsMirror T exec) (s : ScopeId) (hv : v.Moved N v')
    (stmts : List Stmt) (hstmts : BlockAvoids N.hidden stmts) :
    Mirrors T (Completion.Moved N) (runBlock (exec s) v stmts) (runBlock (exec (N.move s)) v' stmts) := by
  induction stmts generalizing v v' with
  | nil => exact .pure (.normal hv)
  | cons st stmts ih =>
    apply (h s st hstmts.1).bind
    intro c c' hc
    cases hc with
    | normal hv => exact ih hv hstmts.2
    | returning hv => exact .pure (.returning hv)

/-- A block in a new scope. -/
theorem mirrors_body (h : StmtsMirror T exec) (s : ScopeId) {own own' : Bindings Value}
    (hown : Aligned (Value.Moved N) own own') (body : List Stmt) (hbody : BlockAvoids N.hidden body) :
    Mirrors T (Completion.Moved N) (openChild s own >>= fun i => runBlock (exec i) .nil body)
      (openChild (N.move s) own' >>= fun i => runBlock (exec i) .nil body) := by
  apply (mirrors_openChild hown s).bind
  rintro i _ rfl
  exact mirrors_runBlock h i .nil body hbody

theorem mirrors_runLoop {body body' : Value → EvalM Completion}
    (hbody : ∀ v v', v.Moved N v' → Mirrors T (Completion.Moved N) (body v) (body' v'))
    (h : List.Forall₂ (Value.Moved N) vs vs') :
    Mirrors T (Completion.Moved N) (runLoop body vs) (runLoop body' vs') := by
  induction h with
  | nil => exact .pure (.normal .nil)
  | cons hv _ ih =>
    apply (hbody _ _ hv).bind
    intro c c' hc
    cases hc with
    | normal _ => exact ih
    | returning hv => exact .pure (.returning hv)

theorem mirrors_binary (op : Operator) {left left' right right' : EvalM Value}
    (hl : Mirrors T (Value.Moved N) left left') (hr : Mirrors T (Value.Moved N) right right') :
    Mirrors T (Value.Moved N) (binary op left right) (binary op left' right') := by
  have hlogical : Mirrors T (Value.Moved N) (logical op right) (logical op right') := by
    apply hr.bind
    intro v v' hv
    apply (mirrors_requireOperand op hv).bind
    rintro b _ rfl
    exact .pure (.boolean b)
  have hboth {f g : Value → Value → EvalM Value}
      (hf : ∀ a a' b b', a.Moved N a' → b.Moved N b' →
        Mirrors T (Value.Moved N) (f a b) (g a' b')) :
      Mirrors T (Value.Moved N) (left >>= fun a => right >>= f a)
        (left' >>= fun a => right' >>= g a) := by
    apply hl.bind
    intro a a' ha
    apply hr.bind
    intro b b' hb
    exact hf a a' b b' ha hb
  have hordering {answer : Value → Value → Option Bool}
      (hanswer : ∀ a a' b b', a.Moved N a' → b.Moved N b' → answer a b = answer a' b') :
      Mirrors T (Value.Moved N)
        (left >>= fun a => right >>= fun b => ordering op (answer a b) a b)
        (left' >>= fun a => right' >>= fun b => ordering op (answer a b) a b) := by
    refine hboth fun a a' b b' ha hb => ?_
    rw [hanswer a a' b b' ha hb]
    exact mirrors_ordering op _ ha hb
  cases op with
  | and | or =>
    apply hl.bind
    intro v v' hv
    apply (mirrors_requireOperand _ hv).bind
    rintro b _ rfl
    cases b
    all_goals first | exact hlogical | exact .pure (.boolean _)
  | add => exact hboth fun a a' b b' ha hb => mirrors_plus ha hb
  | sub | mul => exact hboth fun a a' b b' ha hb => mirrors_arithmetic _ _ _ ha hb
  | div => exact hboth fun a a' b b' ha hb => mirrors_divide ha hb
  | eq | ne =>
    refine hboth fun a a' b b' ha hb => (mirrors_equal ha hb).bind ?_
    rintro answer _ rfl
    exact .pure (.boolean _)
  | lt => exact hordering fun a a' b b' ha hb => ha.less?_eq hb
  | le => exact hordering fun a a' b b' ha hb => ha.lessEq?_eq hb
  | gt => exact hordering fun a a' b b' ha hb => hb.less?_eq ha
  | ge => exact hordering fun a a' b b' ha hb => hb.lessEq?_eq ha

theorem mirrors_enter (h : StmtsMirror T exec) (c : Closure) (hc : BlockAvoids N.hidden c.body)
    (s : ScopeId) (hargs : List.Forall₂ (Value.Moved N) vs vs') :
    Mirrors T (Value.Moved N) (enter exec c s vs)
      (enter exec { c with scope := N.move c.scope } (N.move s) vs') := by
  unfold enter
  dsimp only
  rw [hargs.length_eq]
  apply (mirrors_openChild (aligned_zip c.params c.params_nodup hargs) s).bind
  rintro i _ rfl
  apply (mirrors_report _).bind
  intro _ _ _
  apply (mirrors_runBlock h i .nil c.body hc).bind
  intro r r' hr
  cases hr with
  | normal _ => exact .pure .nil
  | returning hv =>
    apply (mirrors_report _).bind
    intro _ _ _
    exact .pure hv

theorem mirrors_callClosure (h : StmtsMirror T exec) (c : Closure)
    (hc : BlockAvoids N.hidden c.body) (hargs : List.Forall₂ (Value.Moved N) vs vs') :
    Mirrors T (Value.Moved N) (callClosure exec c vs)
      (callClosure exec { c with scope := N.move c.scope } vs') := by
  unfold callClosure
  dsimp only
  split
  · cases hargs with
    | nil => exact .fail _
    | cons hreceiver hargs =>
      dsimp only
      rw [hargs.length_eq]
      split
      · apply (mirrors_openChild (aligned_singleton selfName hreceiver) c.scope).bind
        rintro i _ rfl
        exact mirrors_enter h c hc i hargs
      · exact .fail _
  · rw [hargs.length_eq]
    split
    · exact mirrors_enter h c hc c.scope hargs
    · exact .fail _

theorem mirrors_call (h : StmtsMirror T exec) {f f' : Callable} (hf : f.Moved N f')
    (hargs : List.Forall₂ (Value.Moved N) vs vs') :
    Mirrors T (Value.Moved N) (call exec f vs) (call exec f' vs') := by
  cases hf with
  | native f => exact mirrors_native f hargs
  | named name => exact .pure .nil
  | closure c hc => exact mirrors_callClosure h c hc hargs

end Parts

/-- At a given depth, expressions without the hidden names have values that go together. -/
def ExprMirrors (T : TwoRuns N) (depth : Nat) : Prop :=
  ∀ s, ExprsMirror T (evalExpr depth s) (evalExpr depth (N.move s))

theorem exprMirrors_succ {depth : Nat} (he : ExprMirrors T depth) (h : StmtsMirror T (execStmt depth)) :
    ExprMirrors T (depth + 1) := by
  intro s e havoids
  cases e with
  | literal value => exact .pure (Value.moved_of_literal value)
  | group inner => exact he s inner havoids
  | binary symbol left right =>
    rw [evalExpr, evalExpr]
    split
    · exact mirrors_binary _ (he s left havoids.1) (he s right havoids.2)
    · apply (he s left havoids.1).bind
      intro _ _ _
      apply (he s right havoids.2).bind
      intro _ _ _
      exact .fail _
  | var name =>
    apply (mirrors_lookup havoids s).bind
    intro o o' ho
    cases ho with
    | none => exact .fail _
    | some hv => exact .pure hv
  | property receiver name =>
    apply (he s receiver havoids).bind
    intro v v' hv
    apply (mirrors_requireObject hv).bind
    rintro a _ ⟨ha, rfl⟩
    exact mirrors_member ha name
  | call name args =>
    apply (mirrors_lookup havoids.1 s).bind
    intro o o' ho
    cases ho with
    | none => exact .fail _
    | some hv =>
      apply (mirrors_requireFunction name hv).bind
      intro f f' hf
      apply (mirrors_evalArgs (he s) args havoids.2).bind
      intro vs vs' hvs
      exact mirrors_call h hf hvs
  | methodCall receiver name args =>
    apply (he s receiver havoids.1).bind
    intro v v' hv
    apply (mirrors_requireObject hv).bind
    rintro a _ ⟨ha, rfl⟩
    apply (mirrors_member ha name).bind
    intro w w' hw
    apply (mirrors_requireFunction name hw).bind
    intro f f' hf
    apply (mirrors_evalArgs (he s) args havoids.2).bind
    intro vs vs' hvs
    exact mirrors_call h hf (.cons hv hvs)
  | object name fields methods =>
    apply mirrors_openRoot.bind
    rintro a _ ⟨ha, rfl⟩
    apply (mirrors_execFields (he a) a fields havoids.1).bind
    intro _ _ _
    apply (mirrors_execMethods a methods havoids.2).bind
    intro _ _ _
    exact .pure (.object name ha)
  | misplaced kind => exact .fail _

theorem stmtsMirror_succ {depth : Nat} (he : ExprMirrors T depth) (h : StmtsMirror T (execStmt depth)) :
    StmtsMirror T (execStmt (depth + 1)) := by
  intro s st havoids
  cases st with
  | letStmt decl =>
    apply (mirrors_execLet (he s) s decl havoids).bind
    intro v v' hv
    exact .pure (.normal hv)
  | defStmt decl =>
    apply (mirrors_execDef s false decl havoids).bind
    intro v v' hv
    exact .pure (.normal hv)
  | ifStmt condition thenBody elseBody =>
    apply (he s condition havoids.1).bind
    intro v v' hv
    apply (mirrors_requireCondition hv).bind
    rintro holds _ rfl
    refine mirrors_body h s aligned_empty _ ?_
    cases holds
    · exact havoids.2.2
    · exact havoids.2.1
  | forStmt name iterable body =>
    apply (he s iterable havoids.2.1).bind
    intro v v' hv
    apply (mirrors_requireList hv).bind
    intro items items' hitems
    refine mirrors_runLoop (fun item item' hitem => ?_) hitems
    exact mirrors_body h s (aligned_singleton name hitem) body havoids.2.2
  | returnStmt value =>
    apply (mirrors_evalOption (he s) value havoids).bind
    intro v v' hv
    exact .pure (.returning hv)
  | exprStmt e =>
    apply (he s e havoids).bind
    intro v v' hv
    exact .pure (.normal hv)
  | assignStmt target value =>
    cases target with
    | var name =>
      apply (mirrors_requireBound havoids.1 s).bind
      intro _ _ _
      apply (he s value havoids.2).bind
      intro v v' hv
      apply (mirrors_assign havoids.1 s hv).bind
      intro _ _ _
      exact .pure (.normal hv)
    | property receiver name =>
      apply (he s receiver havoids.1).bind
      intro v v' hv
      apply (mirrors_requireObject hv).bind
      rintro a _ ⟨ha, rfl⟩
      exact mirrors_setMember ha name (he s value havoids.2) ((frame_of_depth depth).1 s value)
    | _ => exact .fail _
  | misplaced kind => exact .fail _

theorem mirrors_of_depth (T : TwoRuns N) (depth : Nat) :
    ExprMirrors T depth ∧ StmtsMirror T (execStmt depth) := by
  induction depth with
  | zero => exact ⟨fun _ _ _ => .throw _, fun _ _ _ => .throw _⟩
  | succ depth ih => exact ⟨exprMirrors_succ ih.1 ih.2, stmtsMirror_succ ih.1 ih.2⟩

theorem mirrors_topLevel {c c' : Completion} (h : c.Moved N c') :
    Mirrors T (Value.Moved N) (topLevel c) (topLevel c') := by
  cases h with
  | normal hv => exact .pure hv
  | returning _ => exact .fail _

/-- A program without the hidden names runs alike in scopes that go together. -/
theorem mirrors_evaluate (T : TwoRuns N) (depth : Nat) (s : ScopeId) (p : Program)
    (hp : p.Avoids N.hidden) :
    Mirrors T (Value.Moved N) (evaluate depth s p) (evaluate depth (N.move s) p) := by
  obtain ⟨he, h⟩ := mirrors_of_depth T depth
  cases p with
  | source stmts =>
    apply (mirrors_runBlock h s .nil stmts hp).bind
    intro c c' hc
    exact mirrors_topLevel hc
  | stmt st =>
    apply (h s st hp).bind
    intro c c' hc
    exact mirrors_topLevel hc
  | expr e => exact he s e hp

end ObjectLang.Evaluation
