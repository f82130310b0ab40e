import ObjectLang.Proofs.Evaluation.Frame
import ObjectLang.Proofs.Evaluation.Results
import ObjectLang.Session

/-!
How statements, blocks and calls end when there is depth enough for them. There is one lemma for each
form: it says what the form comes to from what its parts come to, so that the run of a program can be
followed through its tree, step by step.
-/

namespace ObjectLang

namespace Evaluation

open Forest

variable {α β : Type} {s t : ScopeId} {name : String} {m m₁ m₂ : Machine} {v w last : Value}
  {vs : List Value} {e : Expr} {es : List Expr} {st : Stmt} {stmts : List Stmt} {c : Closure}

/-- With enough depth, a run from the state `m` ends like this. -/
def Settles (run : Nat → EvalM α) (m : Machine) (r : EStateM.Result Fault Machine α) : Prop :=
  ∃ least, ∀ depth ≥ least, run depth m = r

/-- With enough depth, the statement ends like this. -/
def Executes (s : ScopeId) (st : Stmt) : Machine → EStateM.Result Fault Machine Completion → Prop :=
  Settles fun depth => execStmt depth s st

/-- With enough depth, the statements end like this, one after another. -/
def Concludes (s : ScopeId) (last : Value) (stmts : List Stmt) :
    Machine → EStateM.Result Fault Machine Completion → Prop :=
  Settles fun depth => runBlock (execStmt depth s) last stmts

/-- With enough depth, the body ends like this when it has been run for each item in turn. -/
def Loops (s : ScopeId) (name : String) (body : List Stmt) (items : List Value) :
    Machine → EStateM.Result Fault Machine Completion → Prop :=
  Settles fun depth => runLoop (fun item => do
    let inner ← openChild s (Bindings.singleton name item)
    runBlock (execStmt depth inner) .nil body) items

/-- With enough depth, the expressions come to these values, one after another. -/
def Supplies (s : ScopeId) (es : List Expr) (m : Machine) (vs : List Value) (m' : Machine) : Prop :=
  Settles (fun depth => evalArgs (evalExpr depth s) es) m (.ok vs m')

section Settles

variable {x : Nat → EvalM α} {f : Nat → α → EvalM β} {r : EStateM.Result Fault Machine β} {a : α}

theorem settles_const {x : EvalM α} {r : EStateM.Result Fault Machine α} (h : x m = r) :
    Settles (fun _ => x) m r := ⟨0, fun _ _ => h⟩

theorem Settles.bind (hx : Settles x m (.ok a m₁)) (hf : Settles (fun depth => f depth a) m₁ r) :
    Settles (fun depth => x depth >>= f depth) m r := by
  obtain ⟨least, hx⟩ := hx
  obtain ⟨least', hf⟩ := hf
  refine ⟨max least least', fun depth hdepth => ?_⟩
  obtain ⟨hdepth, hdepth'⟩ := Nat.max_le.1 hdepth
  have hsteps : (x depth >>= f depth) m = f depth a m₁ := by rw [bind_apply, hx depth hdepth]
  exact hsteps.trans (hf depth hdepth')

theorem Settles.map {g : α → β} (hx : Settles x m (.ok a m₁)) :
    Settles (fun depth => x depth >>= fun a => pure (g a)) m (.ok (g a) m₁) :=
  hx.bind (settles_const rfl)

/-- What a run comes to with one level more is what it comes to. -/
theorem settles_succ {r : EStateM.Result Fault Machine α} (h : Settles (fun d => x (d + 1)) m r) :
    Settles x m r := by
  obtain ⟨least, h⟩ := h
  refine ⟨least + 1, fun depth hdepth => ?_⟩
  obtain ⟨d, rfl⟩ := Nat.exists_eq_add_of_le' (Nat.le_of_add_left_le hdepth)
  exact h d (Nat.le_of_add_le_add_right hdepth)

end Settles

section Steps

theorem requireFresh_ok (h : name ∉ m.scopes.names s) : requireFresh s name m = .ok () m := by
  rw [← containsOwn_iff, Bool.not_eq_true] at h
  simp [requireFresh_apply, h]

theorem define_ok (h : name ∉ m.scopes.names s) :
    define s name v m = .ok () { m with scopes := m.scopes.insert s name v } := by
  rw [← containsOwn_iff, Bool.not_eq_true] at h
  simp [define_apply, h]

theorem assign_ok (h : m.scopes.owner? s name = some t) :
    assign s name v m = .ok () { m with scopes := m.scopes.insert t name v } := by
  rw [assign_apply, h]

theorem requireBound_ok (h : m.scopes.owner? s name = some t) : requireBound s name m = .ok () m := by
  have hcontains : m.scopes.contains s name = true := by
    rw [contains, List.any_eq_true]
    exact ⟨t, List.mem_of_find?_eq_some h, by simpa using List.find?_some h⟩
  rw [requireBound_apply, if_pos hcontains]

end Steps

section Statements

variable {r : EStateM.Result Fault Machine Completion}

theorem executes_exprStmt (h : Evaluates s (.expr e) m (.ok v m₁)) :
    Executes s (.exprStmt e) m (.ok (.normal v) m₁) :=
  settles_succ (Settles.map h)

theorem executes_returnStmt (h : Evaluates s (.expr e) m (.ok v m₁)) :
    Executes s (.returnStmt (some e)) m (.ok (.returning v) m₁) :=
  settles_succ (Settles.map h)

/-- Finding the value of a variable cannot take its name, which is therefore still new after it. -/
theorem executes_letStmt {type : Option String} (hs : s < m.scopes.size)
    (hn : name ∉ m.scopes.names s) (h : Evaluates s (.expr e) m (.ok v m₁)) :
    Executes s (.letStmt (.mk name type (some e))) m
      (.ok (.normal v) { m₁ with scopes := m₁.scopes.insert s name v }) := by
  have hn₁ : name ∉ m₁.scopes.names s := by
    obtain ⟨least, hleast⟩ := h
    have hkept : SameNames m m₁ := ((frame_of_depth least).1 s e).of_ok (hleast least (Nat.le_refl _))
    rwa [Forest.names, hkept.view_eq s hs]
  have hlet : Settles (fun depth => execLet (evalExpr depth s) s (.mk name type (some e))) m
      (.ok v { m₁ with scopes := m₁.scopes.insert s name v }) :=
    (settles_const (requireFresh_ok hn)).bind (Settles.bind h (settles_const (define_ok hn₁)).map)
  exact settles_succ hlet.map

theorem executes_defStmt {d : DefDecl} (hn : d.name ∉ m.scopes.names s)
    (hc : Closure.ofDecl s false d = .ok c) :
    Executes s (.defStmt d) m (.ok (.normal (.function (.closure c)))
      { m with scopes := m.scopes.insert s d.name (.function (.closure c)) }) := by
  have hdef : execDef s false d m = .ok (.function (.closure c))
      { m with scopes := m.scopes.insert s d.name (.function (.closure c)) } := by
    rw [execDef, bind_apply, requireFresh_ok hn, hc]
    show (define s d.name (.function (.closure c)) >>= fun _ => _) m = _
    rw [bind_apply, define_ok hn]
    rfl
  exact settles_succ (settles_const hdef).map

theorem executes_assignVar (ht : m.scopes.owner? s name = some t)
    (h : Evaluates s (.expr e) m (.ok v m₁)) (ht₁ : m₁.scopes.owner? s name = some t) :
    Executes s (.assignStmt (.var name) e) m
      (.ok (.normal v) { m₁ with scopes := m₁.scopes.insert t name v }) :=
  settles_succ ((settles_const (requireBound_ok ht)).bind
    (Settles.bind h (settles_const (assign_ok ht₁)).map))

theorem executes_ifStmt {holds : Bool} {thenBody elseBody : List Stmt}
    (h : Evaluates s (.expr e) m (.ok (.boolean holds) m₁))
    (hbody : Concludes m₁.scopes.size .nil (if holds then thenBody else elseBody)
      { m₁ with scopes := m₁.scopes.addChild s ∅ } r) :
    Executes s (.ifStmt e thenBody elseBody) m r :=
  settles_succ (Settles.bind h (Settles.bind (settles_const rfl)
    (Settles.bind (settles_const openChild_apply) hbody)))

theorem executes_forStmt {items : List Value} (h : Evaluates s (.expr e) m (.ok (.list items) m₁))
    (hloop : Loops s name stmts items m₁ r) : Executes s (.forStmt name e stmts) m r :=
  settles_succ (Settles.bind h (Settles.bind (settles_const rfl) hloop))

theorem concludes_nil : Concludes s last [] m (.ok (.normal last) m) := settles_const rfl

/-- A statement that ends normally hands on to those after it. -/
theorem concludes_cons (h : Executes s st m (.ok (.normal v) m₁)) (hrest : Concludes s v stmts m₁ r) :
    Concludes s last (st :: stmts) m r :=
  Settles.bind h hrest

/-- A RETURN is the last that is done in a block. -/
theorem concludes_of_returning (h : Executes s st m (.ok (.returning v) m₁)) :
    Concludes s last (st :: stmts) m (.ok (.returning v) m₁) :=
  Settles.bind h (settles_const rfl)

theorem loops_nil : Loops s name stmts [] m (.ok (.normal .nil) m) := settles_const rfl

/-- Every turn is run in a scope of its own, which has the item. -/
theorem loops_cons {item : Value} {items : List Value}
    (hturn : Concludes m.scopes.size .nil stmts
      { m with scopes := m.scopes.addChild s (Bindings.singleton name item) } (.ok (.normal v) m₁))
    (hrest : Loops s name stmts items m₁ r) : Loops s name stmts (item :: items) m r :=
  Settles.bind (Settles.bind (settles_const openChild_apply) hturn) hrest

theorem evaluates_source (h : Concludes s .nil stmts m (.ok (.normal v) m₁)) :
    Evaluates s (.source stmts) m (.ok v m₁) :=
  Settles.bind h (settles_const rfl)

end Statements

section Integers

variable {x y : Expr} {i j : Int} (hx : Evaluates s (.expr x) m (.ok (.integer i) m₁))
  (hy : Evaluates s (.expr y) m₁ (.ok (.integer j) m₂))
include hx hy

theorem evaluates_add_integers :
    Evaluates s (.expr (.binary "+" x y)) m (.ok (.integer (i + j)) m₂) := evaluates_apply .add hx hy

theorem evaluates_sub_integers :
    Evaluates s (.expr (.binary "-" x y)) m (.ok (.integer (i - j)) m₂) := evaluates_apply .sub hx hy

theorem evaluates_mul_integers :
    Evaluates s (.expr (.binary "*" x y)) m (.ok (.integer (i * j)) m₂) := evaluates_apply .mul hx hy

theorem evaluates_le_integers :
    Evaluates s (.expr (.binary "<=" x y)) m (.ok (.boolean (i ≤ j)) m₂) := evaluates_apply .le hx hy

end Integers

section Calls

theorem supplies_nil : Supplies s [] m [] m := settles_const rfl

theorem supplies_cons (h : Evaluates s (.expr e) m (.ok v m₁)) (hrest : Supplies s es m₁ vs m₂) :
    Supplies s (e :: es) m (v :: vs) m₂ :=
  Settles.bind h (Settles.map hrest)

theorem evaluates_call_native {f : Native} {r : Ending}
    (hf : m.scopes.lookup s name = some (.function (.native f))) (hargs : Supplies s es m vs m₁)
    (hr : f.call vs m₁ = r) : Evaluates s (.expr (.call name es)) m r := by
  refine settles_succ (Settles.bind (settles_const lookup_apply) ?_)
  rw [hf]
  exact Settles.bind (settles_const rfl) (Settles.bind hargs (settles_const hr))

/-- The machine when a function with these arguments begins. -/
def entered (m : Machine) (c : Closure) (vs : List Value) : Machine :=
  { m with
    scopes := m.scopes.addChild c.scope (Bindings.zip c.params vs c.params_nodup)
    trace := m.trace.push (.call c.name vs.length) }

/-- The machine when a function has returned. -/
def left (m : Machine) (c : Closure) : Machine := { m with trace := m.trace.push (.returned c.name) }

/-- A call of a function that returns a value. Its body is run in a scope inside the one of its
definition, wherever the call stands. -/
theorem evaluates_call (hf : m.scopes.lookup s name = some (.function (.closure c)))
    (hc : c.isMethod = false) (hargs : Supplies s es m vs m₁) (hlength : vs.length = c.params.length)
    (hbody : Concludes m₁.scopes.size .nil c.body (entered m₁ c vs) (.ok (.returning v) m₂)) :
    Evaluates s (.expr (.call name es)) m (.ok v (left m₂ c)) := by
  have henter : Settles (fun depth => enter (execStmt depth) c c.scope vs) m₁ (.ok v (left m₂ c)) :=
    Settles.bind (settles_const openChild_apply) (Settles.bind (settles_const rfl)
      (Settles.bind hbody (settles_const rfl)))
  have hcall : Settles (fun depth => call (execStmt depth) (.closure c) vs) m₁
      (.ok v (left m₂ c)) := by
    simpa only [call, callClosure, hc, hlength, if_true, if_false, Bool.false_eq_true] using henter
  refine settles_succ (Settles.bind (settles_const lookup_apply) ?_)
  rw [hf]
  exact Settles.bind (settles_const rfl) (Settles.bind hargs hcall)

end Calls

end Evaluation

namespace Session

open Evaluation

variable {σ : Session} {p : Program} {m : Machine} {v : Value}

/-- What a program that writes nothing comes to in a session. -/
theorem evaluate_of_silent (h : Evaluates σ.valueScope p ⟨σ.values, #[], σ.log⟩ (.ok v m))
    (houtput : m.output = #[]) : ∃ least, ∀ depth ≥ least,
      σ.evaluate depth p = (⟨.ok v, ""⟩, { σ with values := m.scopes, log := m.trace }) := by
  obtain ⟨least, h⟩ := h
  have htext : m.text = "" := by
    rw [Machine.text, houtput]
    rfl
  refine ⟨least, fun depth hdepth => ?_⟩
  rw [← htext, evaluate, h depth hdepth]

end Session

end ObjectLang
