import ObjectLang.Evaluation.Rules
import ObjectLang.Proofs.Evaluation.Steps
import ObjectLang.Proofs.Scope.Growth
import ObjectLang.Proofs.Scoping.Rules

/-!
Which names a run can add to the scopes that are there before it. A statement adds the name that it
declares to its own scope, and only when it succeeds. An expression adds none: the functions that it
calls run in scopes of their own.
-/

namespace ObjectLang.Evaluation

open Forest

variable {α β : Type} {s : ScopeId} {names : List String} {x : EvalM α} {f : α → EvalM β}

/-- No scope has got a name. -/
def SameNames (m m' : Machine) : Prop := NamesKept m.scopes m'.scopes

/-- No scope but `s` has got a name. -/
def AddsTo (s : ScopeId) (m m' : Machine) : Prop := ∃ names, AddsNames s names m.scopes m'.scopes

instance : IsPreorder Machine SameNames where
  refl m := Kept.refl _ m.scopes
  trans _ _ _ := Kept.trans

instance : IsPreorder Machine (AddsTo s) where
  refl m := ⟨[], (Kept.refl _ m.scopes).adds s⟩
  trans := by
    rintro _ _ _ ⟨_, h⟩ ⟨_, h'⟩
    exact ⟨_, h.trans h'⟩

theorem SameScopes.sameNames {m m' : Machine} (h : SameScopes m m') : SameNames m m' := by
  unfold SameNames
  rw [h]
  exact Kept.refl _ m.scopes

theorem SameNames.addsTo {m m' : Machine} (h : SameNames m m') (s : ScopeId) : AddsTo s m m' :=
  ⟨[], Kept.adds h s⟩

/-- A run that succeeds adds `names` to `s`; one that fails adds none. -/
def Declares (s : ScopeId) (names : List String) (x : EvalM α) : Prop :=
  ∀ m, match x m with
    | .ok _ m' => AddsNames s names m.scopes m'.scopes
    | .error _ m' => NamesKept m.scopes m'.scopes

theorem Declares.of_keeps (hx : Keeps SameNames x) (s : ScopeId) : Declares s [] x := by
  intro m
  split
  · next hm => exact (hx.of_ok hm).adds s
  · next hm => exact hx.of_error hm

theorem Declares.keeps (hx : Declares s names x) : Keeps (AddsTo s) x := by
  intro m
  have h := hx m
  split at h
  · next hm =>
    rw [hm]
    exact ⟨names, h⟩
  · next hm =>
    rw [hm]
    exact SameNames.addsTo h s

theorem Declares.of_ok (hx : Declares s names x) {m m' : Machine} {a : α} (h : x m = .ok a m') :
    AddsNames s names m.scopes m'.scopes := by
  simpa [h] using hx m

theorem Declares.bind (hx : Keeps SameNames x) (hf : ∀ a, Declares s names (f a)) :
    Declares s names (x >>= f) := by
  intro m
  rw [bind_apply]
  cases hm : x m with
  | ok a m' =>
    have h := hf a m'
    dsimp only
    split
    · next hm' =>
      rw [hm'] at h
      exact (hx.of_ok hm).trans_adds h
    · next hm' =>
      rw [hm'] at h
      exact (hx.of_ok hm).trans h
  | error e m' => exact hx.of_error hm

/-- What comes after a declaration and changes no scope does not fail either. -/
theorem Declares.map (hx : Declares s names x) (g : α → β) :
    Declares s names (x >>= fun a => pure (g a)) := by
  intro m
  have h := hx m
  rw [bind_apply]
  cases hm : x m <;> simpa [hm, pure_apply] using h

theorem keeps_assign (s : ScopeId) (name : String) (v : Value) :
    Keeps SameNames (assign s name v) := by
  intro m
  rw [assign_apply]
  split
  · next t ht =>
    have hn : name ∈ m.scopes.names t := containsOwn_iff.1 (by simpa using List.find?_some ht)
    exact namesKept_insert hn
  · exact Kept.refl _ m.scopes

theorem declares_define (s : ScopeId) (name : String) (v : Value) :
    Declares s [name] (define s name v) := by
  intro m
  rw [define_apply]
  by_cases hc : m.scopes.containsOwn s name = true
  · simpa [hc] using Kept.refl _ m.scopes
  · simpa [hc] using (addsEntries_insert _ fun hn => hc (containsOwn_iff.2 hn)).names

/-- Whatever happens to a new scope, the scopes from before get no name. -/
theorem keeps_openChild {own : Bindings Value} {k : ScopeId → EvalM α}
    (hk : ∀ inner, Keeps (AddsTo inner) (k inner)) : Keeps SameNames (openChild s own >>= k) := by
  intro m
  obtain ⟨_, h⟩ := hk m.scopes.size { m with scopes := m.scopes.addChild s own }
  exact kept_addChild.trans_adds_new (Nat.le_refl _) h

theorem keeps_openRoot {k : ScopeId → EvalM α}
    (hk : ∀ inner, Keeps (AddsTo inner) (k inner)) : Keeps SameNames (openRoot >>= k) := by
  intro m
  obtain ⟨_, h⟩ := hk m.scopes.size { m with scopes := m.scopes.addRoot ∅ }
  exact kept_addRoot.trans_adds_new (Nat.le_refl _) h

section Lists

variable {R : Machine → Machine → Prop} [IsPreorder Machine R]

theorem keeps_runBlock {exec : Stmt → EvalM Completion} {sts : List Stmt}
    (h : ∀ st ∈ sts, Keeps R (exec st)) (last : Value) : Keeps R (runBlock exec last sts) := by
  induction sts generalizing last with
  | nil => exact .pure _
  | cons st sts ih =>
    obtain ⟨hst, hsts⟩ := List.forall_mem_cons.1 h
    apply hst.bind
    intro c
    cases c with
    | normal v => exact ih hsts v
    | returning v => exact .pure _

theorem keeps_runLoop {body : Value → EvalM Completion} (h : ∀ v, Keeps R (body v))
    (items : List Value) : Keeps R (runLoop body items) := by
  induction items with
  | nil => exact .pure _
  | cons item items ih =>
    apply (h item).bind
    intro c
    cases c with
    | normal v => exact ih
    | returning v => exact .pure _

theorem keeps_evalArgs {eval : Expr → EvalM Value} (h : ∀ e, Keeps R (eval e)) (es : List Expr) :
    Keeps R (evalArgs eval es) := by
  induction es with
  | nil => exact .pure _
  | cons e es ih => exact (h e).bind fun v => ih.bind fun vs => .pure _

theorem keeps_evalOption {eval : Expr → EvalM Value} (h : ∀ e, Keeps R (eval e))
    (value : Option Expr) : Keeps R (evalOption eval value) := by
  cases value with
  | none => exact .pure _
  | some e => exact h e

end Lists

theorem keeps_of_sameScopes (hx : Keeps SameScopes x) : Keeps SameNames x :=
  hx.mono fun _ _ => SameScopes.sameNames

theorem declares_fail (s : ScopeId) (names : List String) (e : EvalError) :
    Declares s names (fail e : EvalM α) := fun m => Kept.refl _ m.scopes

theorem declares_execLet {eval : Expr → EvalM Value} (h : ∀ e, Keeps SameNames (eval e))
    (s : ScopeId) (d : LetDecl) : Declares s [d.name] (execLet eval s d) := by
  obtain ⟨name, _, value⟩ := d
  apply Declares.bind (keeps_of_sameScopes (keeps_requireFresh s name))
  intro _
  apply Declares.bind (keeps_evalOption h value)
  intro v
  exact (declares_define s name v).map fun _ => v

theorem declares_execDef (s : ScopeId) (isMethod : Bool) (d : DefDecl) :
    Declares s [d.name] (execDef s isMethod d) := by
  apply Declares.bind (keeps_of_sameScopes (keeps_requireFresh s d.name))
  intro _
  split
  · next c _ => exact (declares_define s d.name _).map fun _ => Value.function (.closure c)
  · exact declares_fail s _ _

theorem keeps_execFields {eval : Expr → EvalM Value} (h : ∀ e, Keeps SameNames (eval e))
    (members : ScopeId) (fields : List LetDecl) :
    Keeps (AddsTo members) (execFields eval members fields) := by
  induction fields with
  | nil => exact .pure _
  | cons d ds ih => exact (declares_execLet h members d).keeps.bind fun _ => ih

theorem keeps_execMethods (members : ScopeId) (methods : List DefDecl) :
    Keeps (AddsTo members) (execMethods members methods) := by
  induction methods with
  | nil => exact .pure _
  | cons d ds ih => exact (declares_execDef members true d).keeps.bind fun _ => ih

section Calls

variable {exec : ScopeId → Stmt → EvalM Completion}
  (h : ∀ s st, Keeps (AddsTo s) (exec s st))

include h

theorem keeps_enter (c : Closure) (scope : ScopeId) (args : List Value) :
    Keeps SameNames (enter exec c scope args) := by
  apply keeps_openChild
  intro inner
  refine Keeps.bind ?_ fun _ => (keeps_runBlock (fun st _ => h inner st) .nil).bind fun outcome => ?_
  · exact (keeps_report _).mono fun _ _ hm => hm.sameNames.addsTo inner
  · cases outcome with
    | normal v => exact .pure _
    | returning v =>
      refine Keeps.bind ?_ fun _ => .pure _
      exact (keeps_report _).mono fun _ _ hm => hm.sameNames.addsTo inner

theorem keeps_callClosure (c : Closure) (args : List Value) :
    Keeps SameNames (callClosure exec c args) := by
  have hfail (e : EvalError) : Keeps SameNames (fail e : EvalM Value) :=
    keeps_of_sameScopes (keeps_fail e)
  unfold callClosure
  split
  · split
    · split
      · exact keeps_openChild fun inner =>
          (keeps_enter h c inner _).mono fun _ _ hm => hm.addsTo inner
      · exact hfail _
    · exact hfail _
  · split
    · exact keeps_enter h c c.scope args
    · exact hfail _

theorem keeps_call (f : Callable) (args : List Value) : Keeps SameNames (call exec f args) := by
  cases f with
  | native f => exact keeps_of_sameScopes (keeps_native f args)
  | closure c => exact keeps_callClosure h c args
  | named name => exact .pure _

end Calls

theorem keeps_binary (op : Operator) {left right : EvalM Value} (hl : Keeps SameNames left)
    (hr : Keeps SameNames right) : Keeps SameNames (binary op left right) := by
  have hlogical : Keeps SameNames (logical op right) :=
    hr.bind fun v => (keeps_of_sameScopes (keeps_requireOperand op v)).bind fun _ => .pure _
  have hboth {f : Value → Value → EvalM Value} (hf : ∀ a b, Keeps SameScopes (f a b)) :
      Keeps SameNames (do f (← left) (← right)) :=
    hl.bind fun a => hr.bind fun b => keeps_of_sameScopes (hf a b)
  cases op with
  | and | or =>
    apply hl.bind
    intro v
    apply (keeps_of_sameScopes (keeps_requireOperand _ v)).bind
    intro b
    cases b
    all_goals first | exact hlogical | exact .pure _
  | add => exact hboth fun a b => keeps_plus a b
  | sub | mul => exact hboth fun a b => keeps_arithmetic _ _ _ a b
  | div => exact hboth fun a b => keeps_divide a b
  | eq | ne => exact hboth fun a b => (keeps_equal a b).bind fun _ => .pure _
  | lt | le | gt | ge => exact hboth fun a b => keeps_ordering _ _ a b

/-- No expression adds a name at a given depth. -/
def ExprFrame (depth : Nat) : Prop := ∀ s e, Keeps SameNames (evalExpr depth s e)

/-- Every statement adds at most the name that it declares at a given depth. -/
def StmtFrame (depth : Nat) : Prop := ∀ s st, Declares s st.declared (execStmt depth s st)

theorem exprFrame_succ {depth : Nat} (he : ExprFrame depth) (hs : StmtFrame depth) :
    ExprFrame (depth + 1) := by
  have hexec : ∀ s st, Keeps (AddsTo s) (execStmt depth s st) := fun s st => (hs s st).keeps
  have hread {α : Type} {x : EvalM α} (hx : Keeps SameScopes x) : Keeps SameNames x :=
    keeps_of_sameScopes hx
  intro s e
  unfold evalExpr
  cases e with
  | literal value => exact .pure _
  | group inner => exact he s inner
  | binary symbol left right =>
    dsimp only
    split
    · exact keeps_binary _ (he s left) (he s right)
    · exact (he s left).bind fun _ => (he s right).bind fun _ => hread (keeps_fail _)
  | var name =>
    apply (hread (keeps_lookup s name)).bind
    intro v
    cases v with
    | none => exact hread (keeps_fail _)
    | some v => exact .pure _
  | property receiver name =>
    apply (he s receiver).bind
    intro v
    apply (hread (keeps_requireObject v)).bind
    intro members
    exact hread (keeps_member members name)
  | call name args =>
    apply (hread (keeps_lookup s name)).bind
    intro v
    cases v with
    | none => exact hread (keeps_fail _)
    | some v =>
      apply (hread (keeps_requireFunction name v)).bind
      intro f
      exact (keeps_evalArgs (he s) args).bind fun vs => keeps_call hexec f vs
  | methodCall receiver name args =>
    apply (he s receiver).bind
    intro object
    apply (hread (keeps_requireObject object)).bind
    intro members
    apply (hread (keeps_member members name)).bind
    intro v
    apply (hread (keeps_requireFunction name v)).bind
    intro f
    exact (keeps_evalArgs (he s) args).bind fun vs => keeps_call hexec f (object :: vs)
  | object name fields methods =>
    apply keeps_openRoot
    intro members
    apply (keeps_execFields (he members) members fields).bind
    intro _
    exact (keeps_execMethods members methods).bind fun _ => .pure _
  | misplaced kind => exact hread (keeps_fail _)

theorem stmtFrame_succ {depth : Nat} (he : ExprFrame depth) (hs : StmtFrame depth) :
    StmtFrame (depth + 1) := by
  have hexec : ∀ s st, Keeps (AddsTo s) (execStmt depth s st) := fun s st => (hs s st).keeps
  have hread {α : Type} {x : EvalM α} (hx : Keeps SameScopes x) : Keeps SameNames x :=
    keeps_of_sameScopes hx
  intro s st
  cases st with
  | letStmt decl => exact (declares_execLet (he s) s decl).map Completion.normal
  | defStmt decl => exact (declares_execDef s false decl).map Completion.normal
  | ifStmt condition thenBody elseBody =>
    refine .of_keeps ?_ s
    apply (he s condition).bind
    intro v
    apply (hread (keeps_requireCondition v)).bind
    intro holds
    exact keeps_openChild fun inner => keeps_runBlock (fun st _ => hexec inner st) _
  | forStmt name iterable body =>
    refine .of_keeps ?_ s
    apply (he s iterable).bind
    intro v
    apply (hread (keeps_requireList v)).bind
    intro items
    exact keeps_runLoop (fun item =>
      keeps_openChild fun inner => keeps_runBlock (fun st _ => hexec inner st) _) items
  | returnStmt value =>
    exact .of_keeps ((keeps_evalOption (he s) value).bind fun _ => .pure _) s
  | exprStmt e => exact .of_keeps ((he s e).bind fun _ => .pure _) s
  | assignStmt target value =>
    refine .of_keeps ?_ s
    cases target with
    | var name =>
      apply (hread (keeps_requireBound s name)).bind
      intro _
      apply (he s value).bind
      intro v
      exact (keeps_assign s name v).bind fun _ => .pure _
    | property receiver name =>
      apply (he s receiver).bind
      intro v
      apply (hread (keeps_requireObject v)).bind
      intro members
      apply (hread (keeps_requireMember members name)).bind
      intro _
      apply (he s value).bind
      intro v
      exact (keeps_assign members name v).bind fun _ => .pure _
    | _ => exact hread (keeps_fail _)
  | misplaced kind => exact .of_keeps (hread (keeps_fail _)) s

theorem frame_of_depth (depth : Nat) : ExprFrame depth ∧ StmtFrame depth := by
  induction depth with
  | zero =>
    exact ⟨fun _ _ m => Kept.refl _ m.scopes, fun _ _ m => Kept.refl _ m.scopes⟩
  | succ depth ih => exact ⟨exprFrame_succ ih.1 ih.2, stmtFrame_succ ih.1 ih.2⟩

theorem keeps_topLevel (c : Completion) : Keeps SameNames (topLevel c) := by
  cases c with
  | normal v => exact .pure v
  | returning v => exact keeps_of_sameScopes (keeps_fail _)

/-- A program adds names to the scope that it is run in only. -/
theorem keeps_evaluate (depth : Nat) (s : ScopeId) (p : Program) :
    Keeps (AddsTo s) (evaluate depth s p) := by
  obtain ⟨he, hs⟩ := frame_of_depth depth
  have htop (c : Completion) : Keeps (AddsTo s) (topLevel c) :=
    (keeps_topLevel c).mono fun _ _ h => h.addsTo s
  cases p with
  | source stmts => exact (keeps_runBlock (fun st _ => (hs s st).keeps) .nil).bind htop
  | stmt st => exact (hs s st).keeps.bind htop
  | expr e => exact (he s e).mono fun _ _ h => h.addsTo s

/-- A program that declares nothing adds no names at all. -/
theorem keeps_evaluate_of_declared {p : Program} (depth : Nat) (s : ScopeId) (hp : p.declared = []) :
    Keeps SameNames (evaluate depth s p) := by
  obtain ⟨he, hs⟩ := frame_of_depth depth
  have hstmt {st : Stmt} (hst : st.declared = []) : Keeps SameNames (execStmt depth s st) := by
    intro m
    have h := hs s st m
    rw [hst] at h
    cases hr : execStmt depth s st m with
    | ok c m' =>
      rw [hr] at h
      exact h.kept
    | error e m' =>
      rw [hr] at h
      exact h
  cases p with
  | source stmts =>
    have hall : ∀ st ∈ stmts, st.declared = [] := List.flatMap_eq_nil_iff.1 hp
    exact (keeps_runBlock (fun st hst => hstmt (hall st hst)) .nil).bind keeps_topLevel
  | stmt st => exact (hstmt hp).bind keeps_topLevel
  | expr e => exact he s e

/-- A block that runs to its end adds what its statements declare. -/
theorem addsNames_runBlock {depth : Nat} {stmts : List Stmt} {last v : Value} {m m' : Machine}
    (h : runBlock (execStmt depth s) last stmts m = .ok (.normal v) m') :
    AddsNames s (stmts.flatMap Stmt.declared) m.scopes m'.scopes := by
  induction stmts generalizing last m with
  | nil =>
    cases h
    exact (Kept.refl _ _).adds s
  | cons st sts ih =>
    obtain ⟨c, m₁, hst, h⟩ := bind_eq_ok.1 h
    have hadds := ((frame_of_depth depth).2 s st).of_ok hst
    cases c with
    | normal w => exact hadds.trans (ih h)
    | returning w => cases h

/-- However a run ends, all scopes that were there before have the same names in the same order,
with one exception: a declaration that succeeds adds its name to its own scope, after the others. -/
theorem evaluation_adds_declared_only (depth : Nat) (s : ScopeId) (m : Machine) :
    (∀ e, NamesKept m.scopes (finalState (evalExpr depth s e m)).scopes) ∧
      ∀ st, match execStmt depth s st m with
        | .ok _ m' => AddsNames s st.declared m.scopes m'.scopes
        | .error _ m' => NamesKept m.scopes m'.scopes := by
  obtain ⟨he, hs⟩ := frame_of_depth depth
  refine ⟨fun e => he s e m, fun st => ?_⟩
  have h := hs s st m
  cases hr : execStmt depth s st m <;> simpa [hr] using h

end ObjectLang.Evaluation
