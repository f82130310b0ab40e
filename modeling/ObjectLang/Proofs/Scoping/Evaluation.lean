import ObjectLang.Proofs.Scoping.Steps

/-!
A well-scoped program finds every name that it looks for. Each step is shown to fail in other ways
only, and to leave all closures ready to be called; this covers closures that are called long after
they were made, in scopes that have got more names since.
-/

namespace ObjectLang.Evaluation

open Forest

variable {m : Machine} {s members : ScopeId} {name : String} {v : Value}
  {visible outer own : List String} {depth : Nat}

/-- At a given depth, an expression whose names are seen does not fail because of names. -/
def ExprSafe (depth : Nat) : Prop :=
  ∀ s e m visible, m.scopes.Ready → ExprScoped visible e →
    (∀ n ∈ visible, n ∈ m.scopes.namesFrom s) →
    Ends (fun v m' => m'.scopes.Ready ∧ v.Ready m'.scopes) Allowed (evalExpr depth s e m)

/-- At a given depth, a well-scoped statement does not fail because of names. -/
def StmtSafe (depth : Nat) : Prop :=
  ∀ s st m outer own inFunction, m.scopes.Ready → Hosts m.scopes s outer own →
    StmtScoped outer own inFunction st →
    Ends (fun c m' => m'.scopes.Ready ∧ c.Ready m'.scopes inFunction) Allowed
      (execStmt depth s st m)

theorem Plain.ready {f : ValueScopes} (hv : Plain v) : v.Ready f := by
  rw [Value.Ready, hv]
  exact fun _ hc => nomatch hc

theorem execDef_apply {d : DefDecl} {isMethod : Bool} {c : Closure}
    (hn : d.name ∉ m.scopes.names s) (hc : Closure.ofDecl s isMethod d = .ok c) :
    execDef s isMethod d m = .ok (.function (.closure c))
      { m with scopes := m.scopes.insert s d.name (.function (.closure c)) } := by
  have hfresh : ¬ m.scopes.containsOwn s d.name = true := fun h => hn (containsOwn_iff.1 h)
  rw [execDef, bind_apply, requireFresh_apply, if_neg hfresh]
  simp only [hc, bind_apply, define_apply, if_neg hfresh]
  rfl

/-- The methods of an object are closures over its members, none of which can be called before all
of them are there. -/
theorem execMethods_ok {ds : List DefDecl} (hlt : members < m.scopes.size)
    (hc : ∀ d ∈ ds, ∃ c, Closure.ofDecl members true d = .ok c)
    (hn : (m.scopes.names members ++ ds.map DefDecl.name).Nodup) :
    ∃ m', execMethods members ds m = .ok () m' ∧ m'.scopes.size = m.scopes.size ∧
      AddsNames members (ds.map DefDecl.name) m.scopes m'.scopes ∧
      ∀ t n w, m'.scopes.lookupOwn t n = some w → m.scopes.lookupOwn t n = some w ∨
        t = members ∧ ∃ d ∈ ds, n = d.name ∧ ∃ c, Closure.ofDecl members true d = .ok c ∧
          w = .function (.closure c) := by
  induction ds generalizing m with
  | nil => exact ⟨m, rfl, rfl, (Kept.refl _ _).adds members, fun _ _ _ => Or.inl⟩
  | cons d ds ih =>
    obtain ⟨c, hcd⟩ := hc d (List.mem_cons_self ..)
    have hnd : d.name ∉ m.scopes.names members := by
      intro hd
      exact (List.nodup_append.1 hn).2.2 _ hd _ (List.mem_cons_self ..) rfl
    have hadds := (addsEntries_insert (Value.function (.closure c)) hnd).names
    have hnames : (m.scopes.insert members d.name (.function (.closure c))).names members =
        m.scopes.names members ++ [d.name] := by
      simpa [names] using hadds.view_eq members hlt
    obtain ⟨m', hrun, hsize, ha, hfound⟩ :=
      ih (m := { m with scopes := m.scopes.insert members d.name (.function (.closure c)) })
        (by simpa using hlt) (fun d hd => hc d (List.mem_cons_of_mem _ hd))
        (by rw [hnames]; simpa using hn)
    refine ⟨m', ?_, by simpa using hsize, hadds.trans ha, fun t n w hw => ?_⟩
    · rw [execMethods, bind_apply, execDef_apply hnd hcd]
      exact hrun
    · rcases hfound t n w hw with hw | ⟨ht, d', hd', h⟩
      · rcases lookupOwn_insert hw with hw | ⟨ht, hn, rfl⟩
        · exact Or.inl hw
        · exact Or.inr ⟨ht, d, List.mem_cons_self .., hn, c, hcd, rfl⟩
      · exact Or.inr ⟨ht, d', List.mem_cons_of_mem _ hd', h⟩

/-- Methods that see the members of their object, and the object itself, are ready. -/
theorem ready_execMethods {ds : List DefDecl} (hm : m.scopes.Ready)
    (hh : Hosts m.scopes members [] own) (hn : (own ++ ds.map DefDecl.name).Nodup)
    (hsc : MethodsScoped (own ++ ds.map DefDecl.name ++ [selfName]) ds) :
    ∃ m', execMethods members ds m = .ok () m' ∧ m'.scopes.Ready := by
  rw [methodsScoped_iff] at hsc
  obtain ⟨m', hrun, -, ha, hfound⟩ := execMethods_ok hh.own_lt
    (fun d hd => exists_closure (hsc d hd).nodup members true) (by rwa [hh.names_eq])
  have hh' := hh.grow ha
  refine ⟨m', hrun, ?_⟩
  intro t n w hw
  rcases hfound t n w hw with hw | ⟨-, d, hd, -, c, hc, rfl⟩
  · exact (hm t n w hw).grow ha
  · intro c' hc'
    rw [List.mem_singleton.1 hc']
    apply closure_ready (hsc d hd) hc
    intro n hn
    rcases List.mem_append.1 hn with hn | hn
    · exact Or.inl (hh'.mem (List.mem_append_left _ hn))
    · exact Or.inr ⟨rfl, List.mem_singleton.1 hn⟩

section Expressions

variable (he : ExprSafe depth)
include he

theorem ends_expr {e : Expr} (hm : m.scopes.Ready) (hsc : ExprScoped visible e)
    (hsees : ∀ n ∈ visible, n ∈ m.scopes.namesFrom s) :
    Ends (fun v m' => m'.scopes.Ready ∧ v.Ready m'.scopes ∧ NamesKept m.scopes m'.scopes) Allowed
      (evalExpr depth s e m) :=
  (he s e m visible hm hsc hsees).mono fun _ _ hr h =>
    ⟨h.1, h.2, ((frame_of_depth depth).1 s e).of_ok hr⟩

theorem ends_args {es : List Expr} (hm : m.scopes.Ready) (hsc : ArgsScoped visible es)
    (hsees : ∀ n ∈ visible, n ∈ m.scopes.namesFrom s) :
    Ends (fun vs m' => m'.scopes.Ready ∧ (∀ v ∈ vs, v.Ready m'.scopes) ∧
      NamesKept m.scopes m'.scopes) Allowed (evalArgs (evalExpr depth s) es m) := by
  induction es generalizing m with
  | nil => exact ⟨hm, (fun _ hv => nomatch hv), Kept.refl _ _⟩
  | cons e es ih =>
    apply (ends_expr he hm hsc.1 hsees).bind
    rintro v m₁ _ ⟨hm₁, hv, hk₁⟩
    have hsees₁ (n) (hn : n ∈ visible) := hk₁.mem_namesFrom (hsees n hn)
    apply (ih hm₁ hsc.2 hsees₁).bind
    rintro vs m₂ _ ⟨hm₂, hvs, hk₂⟩
    exact ⟨hm₂, List.forall_mem_cons.2 ⟨hv.keep hk₂, hvs⟩, hk₁.trans hk₂⟩

theorem ends_option {value : Option Expr} (hm : m.scopes.Ready) (hsc : OptionScoped visible value)
    (hsees : ∀ n ∈ visible, n ∈ m.scopes.namesFrom s) :
    Ends (fun v m' => m'.scopes.Ready ∧ v.Ready m'.scopes ∧ NamesKept m.scopes m'.scopes) Allowed
      (evalOption (evalExpr depth s) value m) := by
  cases value with
  | none => exact ⟨hm, Plain.ready rfl, Kept.refl _ _⟩
  | some e => exact ends_expr he hm hsc hsees

theorem ends_execLet {d : LetDecl} (hm : m.scopes.Ready) (hh : Hosts m.scopes s outer own)
    (hsc : LetScoped outer own d) :
    Ends (fun v m' => m'.scopes.Ready ∧ v.Ready m'.scopes ∧
      AddsNames s [d.name] m.scopes m'.scopes) Allowed (execLet (evalExpr depth s) s d m) := by
  obtain ⟨name, typeName, value⟩ := d
  obtain ⟨hn, hvalue⟩ := hsc
  have hfresh : m.scopes.containsOwn s name = false := by
    rw [← Bool.not_eq_true, containsOwn_iff, hh.names_eq]
    exact hn
  have hrun : execLet (evalExpr depth s) s (.mk name typeName value) m = (do
      let v ← evalOption (evalExpr depth s) value
      define s name v
      return v) m := by
    rw [execLet, bind_apply, requireFresh_apply, hfresh]
    rfl
  rw [hrun]
  apply (ends_option he hm hvalue fun n => hh.mem).bind
  rintro v m₁ _ ⟨hm₁, hv, hk⟩
  have hn₁ : name ∉ m₁.scopes.names s := by
    rw [(hh.keep hk).names_eq]
    exact hn
  have hadds := (addsEntries_insert v hn₁).names
  rw [bind_apply, define_apply, if_neg fun h => hn₁ (containsOwn_iff.1 h)]
  exact ⟨ready_insert hm₁ hadds (hv.grow hadds), hv.grow hadds, hk.trans_adds hadds⟩

theorem ends_execFields {ds : List LetDecl} (hm : m.scopes.Ready)
    (hh : Hosts m.scopes members [] own) (hsc : FieldsScoped own ds) :
    Ends (fun _ m' => m'.scopes.Ready ∧
      AddsNames members (ds.map LetDecl.name) m.scopes m'.scopes) Allowed
      (execFields (evalExpr depth members) members ds m) := by
  induction ds generalizing m own with
  | nil => exact ⟨hm, (Kept.refl _ _).adds members⟩
  | cons d ds ih =>
    apply (ends_execLet he hm hh hsc.1).bind
    rintro v m₁ _ ⟨hm₁, _, ha₁⟩
    apply (ih hm₁ (hh.grow ha₁) hsc.2).mono
    rintro _ m₂ _ ⟨hm₂, ha₂⟩
    exact ⟨hm₂, ha₁.trans ha₂⟩

end Expressions

section Statements

variable {inFunction : Bool} (hs : StmtSafe depth)
include hs

theorem ends_block {stmts : List Stmt} {last : Value} (hm : m.scopes.Ready)
    (hlast : last.Ready m.scopes) (hh : Hosts m.scopes s outer own)
    (hsc : BlockScoped outer own inFunction stmts) :
    Ends (fun c m' => m'.scopes.Ready ∧ c.Ready m'.scopes inFunction) Allowed
      (runBlock (execStmt depth s) last stmts m) := by
  induction stmts generalizing m last own with
  | nil => exact ⟨hm, hlast⟩
  | cons st sts ih =>
    apply (hs s st m outer own inFunction hm hh hsc.1).bind
    rintro c m₁ hr ⟨hm₁, hc⟩
    cases c with
    | normal v => exact ih hm₁ hc (hh.grow (((frame_of_depth depth).2 s st).of_ok hr)) hsc.2
    | returning v => exact ⟨hm₁, hc⟩

/-- A block in a new scope, which starts with some names of its own. -/
theorem ends_body (own : Bindings Value) {body : List Stmt} (hm : m.scopes.Ready)
    (hown : ∀ e ∈ own.entries, e.2.Ready m.scopes) (hsees : ∀ n ∈ outer, n ∈ m.scopes.namesFrom s)
    (hsc : BlockScoped outer own.names inFunction body) :
    Ends (fun c m' => m'.scopes.Ready ∧ c.Ready m'.scopes inFunction) Allowed
      ((openChild s own >>= fun inner => runBlock (execStmt depth inner) .nil body) m) :=
  ends_block hs (ready_addChild hm hown) (Plain.ready rfl) (hosts_addChild own hsees) hsc

theorem ends_loop {body : List Stmt} {items : List Value} (hm : m.scopes.Ready)
    (hitems : ∀ v ∈ items, v.Ready m.scopes) (hsees : ∀ n ∈ outer, n ∈ m.scopes.namesFrom s)
    (hsc : BlockScoped outer [name] inFunction body) :
    Ends (fun c m' => m'.scopes.Ready ∧ c.Ready m'.scopes inFunction) Allowed
      (runLoop (fun item => do
        let inner ← openChild s (Bindings.singleton name item)
        runBlock (execStmt depth inner) .nil body) items m) := by
  induction items generalizing m with
  | nil => exact ⟨hm, Plain.ready rfl⟩
  | cons item items ih =>
    have hitem := hitems item (List.mem_cons_self ..)
    have hkeeps : Keeps SameNames (openChild s (Bindings.singleton name item) >>= fun inner =>
        runBlock (execStmt depth inner) .nil body) :=
      keeps_openChild fun inner => keeps_runBlock
        (fun st _ => ((frame_of_depth depth).2 inner st).keeps) _
    apply (ends_body hs (Bindings.singleton name item) hm
      (by simpa [Bindings.singleton] using hitem) hsees hsc).bind
    rintro c m₁ hr ⟨hm₁, hc⟩
    have hk : NamesKept m.scopes m₁.scopes := hkeeps.of_ok hr
    cases c with
    | normal v =>
      exact ih hm₁ (fun v hv => (hitems v (List.mem_cons_of_mem _ hv)).keep hk)
        fun n hn => hk.mem_namesFrom (hsees n hn)
    | returning v => exact ⟨hm₁, hc⟩

/-- The body of a closure finds its names in the scope that it runs in, however long ago the closure
was made. -/
theorem ends_enter {c : Closure} {args : List Value} (hm : m.scopes.Ready)
    (hargs : ∀ v ∈ args, v.Ready m.scopes) (hlen : args.length = c.params.length)
    (hsees : ∀ n ∈ outer, n ∈ m.scopes.namesFrom s) (hsc : BlockScoped outer c.params true c.body) :
    Ends (fun v m' => m'.scopes.Ready ∧ v.Ready m'.scopes) Allowed
      (enter (execStmt depth) c s args m) := by
  have hnames : (Bindings.zip c.params args c.params_nodup).names = c.params := by
    simp [Bindings.names, Bindings.zip, List.map_fst_zip, hlen]
  have hown : ∀ e ∈ (Bindings.zip c.params args c.params_nodup).entries, e.2.Ready m.scopes :=
    fun e he => hargs e.2 (List.of_mem_zip he).2
  rw [enter, bind_apply, openChild_apply]
  apply (quiet_report _ _).bind
  intro _ m₁ _ h₁
  have hm₁ : m₁.scopes = m.scopes.addChild s (Bindings.zip c.params args c.params_nodup) := h₁.2
  have hready : m₁.scopes.Ready := hm₁ ▸ ready_addChild hm hown
  have hnil : Value.nil.Ready m₁.scopes := Plain.ready rfl
  have hhosts := hosts_addChild (Bindings.zip c.params args c.params_nodup) hsees
  rw [hnames, ← hm₁] at hhosts
  apply (ends_block hs hready hnil hhosts hsc).bind
  rintro outcome m₂ _ ⟨hm₂, ho⟩
  cases outcome with
  | normal v => exact ⟨hm₂, Plain.ready rfl⟩
  | returning v =>
    apply (quiet_report _ m₂).bind
    rintro _ m₃ _ ⟨_, hm₃⟩
    show m₃.scopes.Ready ∧ v.Ready m₃.scopes
    rw [hm₃]
    exact ⟨hm₂, ho.2⟩

theorem ends_callClosure {c : Closure} {args : List Value} (hm : m.scopes.Ready)
    (hc : c.Ready m.scopes) (hargs : ∀ v ∈ args, v.Ready m.scopes) :
    Ends (fun v m' => m'.scopes.Ready ∧ v.Ready m'.scopes) Allowed
      (callClosure (execStmt depth) c args m) := by
  obtain ⟨outer, hsc, hsees⟩ := hc
  unfold callClosure
  split
  · next hmethod =>
    split
    · next receiver args =>
      split
      · next hlen =>
        obtain ⟨hreceiver, hargs⟩ := List.forall_mem_cons.1 hargs
        have hkept : NamesKept m.scopes
            (m.scopes.addChild c.scope (Bindings.singleton selfName receiver)) := kept_addChild
        rw [bind_apply, openChild_apply]
        refine ends_enter hs (ready_addChild hm (by simpa [Bindings.singleton] using hreceiver))
          (fun v hv => (hargs v hv).keep hkept) hlen (fun n hn => ?_) hsc
        rcases hsees n hn with hn | ⟨-, rfl⟩
        · exact mem_namesFrom_addChild hn
        · refine List.mem_append_left _ ?_
          rw [names_addChild]
          exact List.mem_singleton.2 rfl
      · exact ends_fail .arityMismatch rfl (by decide)
    · exact ends_fail .arityMismatch rfl (by decide)
  · next hmethod =>
    split
    · next hlen =>
      refine ends_enter hs hm hargs hlen (fun n hn => ?_) hsc
      exact (hsees n hn).resolve_right fun h => hmethod h.1
    · exact ends_fail .arityMismatch rfl (by decide)

theorem ends_call {f : Callable} {args : List Value} (hm : m.scopes.Ready)
    (hf : (Value.function f).Ready m.scopes) (hargs : ∀ v ∈ args, v.Ready m.scopes) :
    Ends (fun v m' => m'.scopes.Ready ∧ v.Ready m'.scopes) Allowed
      (call (execStmt depth) f args m) := by
  cases f with
  | native f =>
    apply (quiet_native f args (.inr fun _ he => allowed_error _ he (by decide)) m).mono
    rintro v m' _ ⟨hv, hm'⟩
    rw [hm']
    refine ⟨hm, fun c hc => ?_⟩
    obtain ⟨w, hw, hc⟩ := Value.mem_closuresAll.1 (hv c hc)
    exact hargs w hw c hc
  | closure c => exact ends_callClosure hs hm (hf c (List.mem_singleton.2 rfl)) hargs
  | named name => exact ⟨hm, Plain.ready rfl⟩

end Statements

/-- An operator makes scalars, and whatever its operands keep up it keeps up. -/
theorem ends_binary {I J : ValueScopes → Prop} (op : Operator) {left right : EvalM Value}
    (hIJ : ∀ f, I f → J f) (hl : Ends (fun _ m' => I m'.scopes) Allowed (left m))
    (hr : ∀ m', I m'.scopes → Ends (fun _ m'' => J m''.scopes) Allowed (right m')) :
    Ends (fun v m' => Scalar v ∧ J m'.scopes) Allowed (binary op left right m) := by
  have hquiet {P : Value → Prop} {K : ValueScopes → Prop} {x : EvalM Value} (hx : Quiet Allowed P x)
      (m₁ : Machine) (h₁ : K m₁.scopes) : Ends (fun v m' => P v ∧ K m'.scopes) Allowed (x m₁) := by
    apply (hx m₁).mono
    rintro _ m' _ ⟨hv, hm'⟩
    exact ⟨hv, hm' ▸ h₁⟩
  have hlogical (m₁ : Machine) (h₁ : I m₁.scopes) :
      Ends (fun v m' => Scalar v ∧ J m'.scopes) Allowed (logical op right m₁) := by
    have hread (v : Value) : Quiet Allowed Scalar (do return .boolean (← requireOperand op v)) :=
      (quiet_requireOperand op v).bind fun _ _ => .pure trivial
    exact (hr m₁ h₁).bind fun v m₂ _ h₂ => hquiet (hread v) m₂ h₂
  have hboth {f : Value → Value → EvalM Value} (hf : ∀ a b, Quiet Allowed Scalar (f a b)) :
      Ends (fun v m' => Scalar v ∧ J m'.scopes) Allowed
        ((do f (← left) (← right) : EvalM Value) m) :=
    hl.bind fun a m₁ _ h₁ => (hr m₁ h₁).bind fun b m₂ _ h₂ => hquiet (hf a b) m₂ h₂
  cases op with
  | and | or =>
    apply hl.bind
    intro v m₁ _ h₁
    apply (quiet_requireOperand _ v m₁).bind
    rintro b m₂ _ ⟨_, hm₂⟩
    have h₂ : I m₂.scopes := hm₂ ▸ h₁
    cases b
    all_goals first | exact hlogical m₂ h₂ | exact ⟨trivial, hIJ _ h₂⟩
  | add => exact hboth fun a b => quiet_plus a b
  | sub | mul => exact hboth fun a b => quiet_arithmetic _ _ _ a b
  | div => exact hboth fun a b => quiet_divide a b
  | eq | ne => exact hboth fun a b => (quiet_equal a b).bind fun _ _ => .pure trivial
  | lt | le | gt | ge => exact hboth fun a b => quiet_ordering _ _ a b

theorem ends_member (hm : m.scopes.Ready) :
    Ends (fun v m' => v.Ready m.scopes ∧ m' = m) Allowed (member members name m) := by
  rw [member_apply]
  cases h : m.scopes.lookupOwn members name with
  | none =>
    show EvalErrorKind.undefinedMember ∉ scopingErrors
    decide
  | some v => exact ⟨hm members name v h, rfl⟩

/-- A name that is seen can be assigned to. -/
theorem ends_assign {inFunction : Bool} (hm : m.scopes.Ready) (hv : v.Ready m.scopes)
    (hn : name ∈ m.scopes.namesFrom s) :
    Ends (fun c m' => m'.scopes.Ready ∧ c.Ready m'.scopes inFunction) Allowed
      ((assign s name v >>= fun _ => pure (Completion.normal v)) m) := by
  obtain ⟨t, ht⟩ := exists_owner hn
  have hown : name ∈ m.scopes.names t := containsOwn_iff.1 (by simpa using List.find?_some ht)
  have hkept : NamesKept m.scopes (m.scopes.insert t name v) := namesKept_insert hown
  rw [bind_apply, assign_apply, ht]
  exact ⟨ready_insert hm (hkept.adds t) (hv.keep hkept), hv.keep hkept⟩

theorem exprSafe_succ (he : ExprSafe depth) (hs : StmtSafe depth) : ExprSafe (depth + 1) := by
  intro s e m visible hm hsc hsees
  unfold evalExpr
  cases e with
  | literal value => exact ⟨hm, Plain.ready value.closures_toValue⟩
  | group inner => exact he s inner m visible hm hsc hsees
  | binary symbol left right =>
    obtain ⟨⟨op, hop⟩, hl, hr⟩ := hsc
    simp only [hop]
    have hleft : Ends (fun _ m₁ => m₁.scopes.Ready ∧ NamesKept m.scopes m₁.scopes) Allowed
        (evalExpr depth s left m) :=
      (ends_expr he hm hl hsees).mono fun _ _ _ h => ⟨h.1, h.2.2⟩
    have hright (m₁ : Machine) (h₁ : m₁.scopes.Ready ∧ NamesKept m.scopes m₁.scopes) :
        Ends (fun _ m₂ => m₂.scopes.Ready) Allowed (evalExpr depth s right m₁) :=
      (ends_expr he h₁.1 hr fun n hn => h₁.2.mem_namesFrom (hsees n hn)).mono fun _ _ _ h => h.1
    apply (ends_binary op (fun _ h => And.left h) hleft hright).mono
    rintro v m' _ ⟨hv, hm'⟩
    exact ⟨hm', hv.plain.ready⟩
  | var name =>
    obtain ⟨v, hv⟩ := exists_lookup (hsees name hsc)
    simp only [bind_apply, lookup_apply, hv]
    exact ⟨hm, ready_lookup hm hv⟩
  | property receiver name =>
    have hsc : ExprScoped visible receiver := hsc
    apply (ends_expr he hm hsc hsees).bind
    rintro v m₁ _ ⟨hm₁, _⟩
    apply (quiet_requireObject v m₁).bind
    rintro members m₂ _ ⟨_, h₂⟩
    have hm₂ : m₂.scopes.Ready := h₂ ▸ hm₁
    apply (ends_member hm₂).mono
    rintro w m₃ _ ⟨hw, h₃⟩
    exact h₃ ▸ ⟨hm₂, hw⟩
  | call name args =>
    obtain ⟨v, hv⟩ := exists_lookup (hsees name hsc.1)
    simp only [bind_apply, lookup_apply, hv]
    apply (quiet_requireFunction name v m).bind
    rintro f m₁ _ ⟨hf, h₁⟩
    have hm₁ : m₁.scopes.Ready := h₁ ▸ hm
    have hf : (Value.function f).Ready m₁.scopes := h₁ ▸ hf ▸ ready_lookup hm hv
    apply (ends_args he hm₁ hsc.2 (h₁ ▸ hsees)).bind
    rintro vs m₂ _ ⟨hm₂, hvs, hk⟩
    exact ends_call hs hm₂ (hf.keep hk) hvs
  | methodCall receiver name args =>
    apply (ends_expr he hm hsc.1 hsees).bind
    rintro object m₁ _ ⟨hm₁, ho, hk₁⟩
    apply (quiet_requireObject object m₁).bind
    rintro members m₂ _ ⟨_, h₂⟩
    have hm₂ : m₂.scopes.Ready := h₂ ▸ hm₁
    apply (ends_member hm₂).bind
    rintro v m₃ _ ⟨hv, h₃⟩
    subst h₃
    apply (quiet_requireFunction name v m₃).bind
    rintro f m₄ _ ⟨hf, h₄⟩
    have hm₄ : m₄.scopes.Ready := h₄ ▸ hm₂
    have hf : (Value.function f).Ready m₄.scopes := h₄ ▸ hf ▸ hv
    have ho : object.Ready m₄.scopes := h₄ ▸ h₂ ▸ ho
    have hsees (n) (hn : n ∈ visible) : n ∈ m₄.scopes.namesFrom s :=
      h₄ ▸ h₂ ▸ hk₁.mem_namesFrom (hsees n hn)
    apply (ends_args he hm₄ hsc.2 hsees).bind
    rintro vs m₅ _ ⟨hm₅, hvs, hk₅⟩
    exact ends_call hs hm₅ (hf.keep hk₅) (List.forall_mem_cons.2 ⟨ho.keep hk₅, hvs⟩)
  | object name fields methods =>
    obtain ⟨hnodup, hfields, hmethods⟩ := hsc
    dsimp only
    rw [bind_apply, openRoot_apply]
    apply (ends_execFields he (ready_addRoot hm ready_noEntries) hosts_addRoot hfields).bind
    rintro _ m₁ _ ⟨hm₁, ha₁⟩
    obtain ⟨m₂, hrun, hm₂⟩ := ready_execMethods hm₁ (hosts_addRoot.grow ha₁) hnodup hmethods
    rw [bind_apply, hrun]
    exact ⟨hm₂, Plain.ready rfl⟩
  | misplaced kind => exact hsc.elim

theorem stmtSafe_succ (he : ExprSafe depth) (hs : StmtSafe depth) : StmtSafe (depth + 1) := by
  intro s st m outer own inFunction hm hh hsc
  have hsees (n) (hn : n ∈ own ++ outer) : n ∈ m.scopes.namesFrom s := hh.mem hn
  unfold execStmt
  cases st with
  | letStmt decl =>
    apply (ends_execLet he hm hh hsc).bind
    rintro v m₁ _ ⟨hm₁, hv, _⟩
    exact ⟨hm₁, hv⟩
  | defStmt decl =>
    obtain ⟨hn, hd⟩ := hsc
    obtain ⟨c, hc⟩ := exists_closure hd.nodup s false
    have hn : decl.name ∉ m.scopes.names s := hh.names_eq ▸ hn
    have ha := (addsEntries_insert (Value.function (.closure c)) hn).names
    have hready : (Value.function (.closure c)).Ready
        (m.scopes.insert s decl.name (.function (.closure c))) := by
      intro c' hc'
      rw [List.mem_singleton.1 hc']
      exact closure_ready hd hc fun n hn => Or.inl ((hh.grow ha).mem hn)
    dsimp only
    rw [bind_apply, execDef_apply hn hc]
    exact ⟨ready_insert hm ha hready, hready⟩
  | ifStmt condition thenBody elseBody =>
    obtain ⟨hcondition, hthen, helse⟩ := hsc
    apply (ends_expr he hm hcondition hsees).bind
    rintro v m₁ _ ⟨hm₁, _, hk⟩
    apply (quiet_requireCondition v m₁).bind
    rintro holds m₂ _ ⟨_, h₂⟩
    have hsees₂ (n) (hn : n ∈ own ++ outer) : n ∈ m₂.scopes.namesFrom s :=
      h₂ ▸ hk.mem_namesFrom (hsees n hn)
    refine ends_body hs ∅ (h₂ ▸ hm₁) ready_noEntries hsees₂ ?_
    cases holds
    · exact helse
    · exact hthen
  | forStmt name iterable body =>
    apply (ends_expr he hm hsc.1 hsees).bind
    rintro v m₁ _ ⟨hm₁, hv, hk⟩
    apply (quiet_requireList v m₁).bind
    rintro items m₂ _ ⟨hitems, h₂⟩
    have hsees₂ (n) (hn : n ∈ own ++ outer) : n ∈ m₂.scopes.namesFrom s :=
      h₂ ▸ hk.mem_namesFrom (hsees n hn)
    refine ends_loop hs (h₂ ▸ hm₁) (fun w hw c hc => ?_) hsees₂ hsc.2
    subst hitems
    exact h₂ ▸ hv c (Value.mem_closuresAll.2 ⟨w, hw, hc⟩)
  | returnStmt value =>
    apply (ends_option he hm hsc.2 hsees).bind
    rintro v m₁ _ ⟨hm₁, hv, _⟩
    exact ⟨hm₁, hsc.1, hv⟩
  | exprStmt e =>
    have hsc : ExprScoped (own ++ outer) e := hsc
    apply (ends_expr he hm hsc hsees).bind
    rintro v m₁ _ ⟨hm₁, hv, _⟩
    exact ⟨hm₁, hv⟩
  | assignStmt target value =>
    cases target with
    | var name =>
      have hbound : m.scopes.contains s name = true := contains_iff.2 (hsees name hsc.1)
      dsimp only
      rw [bind_apply, requireBound_apply, if_pos hbound]
      apply (ends_expr he hm hsc.2 hsees).bind
      rintro v m₁ _ ⟨hm₁, hv, hk⟩
      exact ends_assign hm₁ hv (hk.mem_namesFrom (hsees name hsc.1))
    | property receiver name =>
      apply (ends_expr he hm hsc.1 hsees).bind
      rintro v m₁ _ ⟨hm₁, _, hk₁⟩
      apply (quiet_requireObject v m₁).bind
      rintro members m₂ _ ⟨_, h₂⟩
      have hm₂ : m₂.scopes.Ready := h₂ ▸ hm₁
      have hsees₂ (n) (hn : n ∈ own ++ outer) : n ∈ m₂.scopes.namesFrom s :=
        h₂ ▸ hk₁.mem_namesFrom (hsees n hn)
      rw [bind_apply, requireMember_apply]
      by_cases hmember : m₂.scopes.containsOwn members name = true
      · rw [if_pos hmember]
        apply (ends_expr he hm₂ hsc.2 hsees₂).bind
        rintro w m₃ _ ⟨hm₃, hw, hk₃⟩
        refine ends_assign hm₃ hw (hk₃.mem_namesFrom ?_)
        exact List.mem_append_left _ (containsOwn_iff.1 hmember)
      · rw [if_neg hmember]
        show EvalErrorKind.undefinedMember ∉ scopingErrors
        decide
    | _ => exact hsc.elim
  | misplaced kind => exact hsc.elim

/-- Well-scoped programs do not fail because of names, at whatever depth they stop. -/
theorem safe_of_depth (depth : Nat) : ExprSafe depth ∧ StmtSafe depth := by
  induction depth with
  | zero => exact ⟨fun _ _ _ _ _ _ _ => trivial, fun _ _ _ _ _ _ _ _ _ => trivial⟩
  | succ depth ih => exact ⟨exprSafe_succ ih.1 ih.2, stmtSafe_succ ih.1 ih.2⟩

/-- A well-scoped program does not fail because of names, and binds those that it declares. -/
theorem evaluate_safe (depth : Nat) {p : Program} (hm : m.scopes.Ready)
    (hh : Hosts m.scopes s outer own) (hsc : ProgramScoped outer own p) :
    Ends (fun _ m' => m'.scopes.Ready ∧ AddsNames s p.declared m.scopes m'.scopes) Allowed
      (evaluate depth s p m) := by
  obtain ⟨he, hs⟩ := safe_of_depth depth
  cases p with
  | source stmts =>
    have hnil : Value.nil.Ready m.scopes := Plain.ready rfl
    apply (ends_block hs hm hnil hh hsc).bind
    rintro c m₁ hr ⟨hm₁, hc⟩
    cases c with
    | normal v => exact ⟨hm₁, addsNames_runBlock hr⟩
    | returning v => cases hc.1
  | stmt st =>
    apply (hs s st m outer own false hm hh hsc).bind
    rintro c m₁ hr ⟨hm₁, hc⟩
    cases c with
    | normal v => exact ⟨hm₁, ((frame_of_depth depth).2 s st).of_ok hr⟩
    | returning v => cases hc.1
  | expr e =>
    have hsc : ExprScoped (own ++ outer) e := hsc
    apply (ends_expr he hm hsc fun n => hh.mem).mono
    rintro v m₁ _ ⟨hm₁, _, hk⟩
    exact ⟨hm₁, hk.adds s⟩

end ObjectLang.Evaluation
