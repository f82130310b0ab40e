import ObjectLang.Evaluation.Rules
import ObjectLang.Proofs.Resolution.Sites
import ObjectLang.Proofs.Resolution.Uses
import ObjectLang.Proofs.Scoping.Rules
import ObjectLang.Proofs.Steps

/-!
Evaluation under observation: the same steps, with the machines that they lead to and the moments at
which scopes are opened, functions are made and called, and names are bound again. Observing changes
nothing (`run_watch`), so what is proved of the moments is proved of the evaluation. Whatever is run is
at a place in the program: it has a path from the block that its scope was opened for, and the moments
tell from where a scope was opened, so the place of every scope can be followed (`places`).
-/

namespace ObjectLang.Evaluation

/-- A scope has been opened for a text that declares names, which is to be found from the block of
another scope along a path, or, in a machine, a definition has bound a closure, a closure is called, an
object has got a method, a name that was bound in a scope has got another value, or any other step has
been taken; or an expression, found along a path from the block of a scope, has got its value. -/
inductive Moment where
  | opened (s outer : ScopeId) (path : Path) (declared : List String)
  | made (c : Closure) (m : Machine)
  | called (c : Closure) (m : Machine)
  | method (members : ScopeId) (name : String) (v : Value) (m : Machine)
  | assigned (s : ScopeId) (name : String) (m : Machine)
  | reached (m : Machine)
  | valued (s : ScopeId) (path : Path) (e : Expr) (v : Value)

/-- Where the blocks of scopes are after a moment. A new scope is for the text that it is opened for. -/
def Moment.locate (place : ScopeId → Option Path) : Moment → ScopeId → Option Path
  | .opened s outer path _, t => if t = s then (place outer).map (path ++ ·) else place t
  | _, t => place t

/-- Where the blocks of scopes are after several moments. -/
def places (place : ScopeId → Option Path) (ks : List Moment) : ScopeId → Option Path :=
  ks.foldl Moment.locate place

/-- A value is the closure of a method with the given name, made among the members of an object. -/
def MethodOf (members : ScopeId) (name : String) (v : Value) : Prop :=
  ∃ d c, d.name = name ∧ Closure.ofDecl members true d = .ok c ∧ v = .function (.closure c)

/-- Steps, and the moments that a run of them passes from a machine on, however it ends. -/
structure Watched (α : Type) where
  run : EvalM α
  moments : Machine → List Moment

variable {α : Type}

instance : Monad Watched where
  pure a := ⟨pure a, fun _ => []⟩
  bind x f :=
    { run := x.run >>= fun a => (f a).run
      moments := fun m => x.moments m ++
        match x.run m with
        | .ok a m' => (f a).moments m'
        | .error _ _ => [] }

/-- A step, which leads to a machine whether it fails or not. -/
def step (x : EvalM α) : Watched α := ⟨x, fun m => [.reached (finalState (x m))]⟩

/-- A moment to be noted. -/
def mark (moment : Machine → Moment) : Watched Unit := ⟨pure (), fun m => [moment m]⟩

/-- The value of an expression is noted, once it is there. -/
def noting (s : ScopeId) (path : Path) (e : Expr) (w : Watched Value) : Watched Value := do
  let v ← w
  mark fun _ => .valued s path e v
  return v

section Steps

def watchAssign (s : ScopeId) (name : String) (v : Value) : Watched Unit where
  run := assign s name v
  moments m :=
    match m.scopes.owner? s name with
    | some t => [.assigned t name { m with scopes := m.scopes.insert t name v }]
    | none => [.reached m]

def watchBlock (exec : Path → Stmt → Watched Completion) (path : Path) (last : Value) :
    List Stmt → Watched Completion
  | [] => return .normal last
  | st :: sts => do
    match ← exec (.part 0 :: path) st with
    | .normal v => watchBlock exec (.part 1 :: path) v sts
    | .returning v => return .returning v

def watchLoop (body : Value → Watched Completion) : List Value → Watched Completion
  | [] => return .normal .nil
  | item :: items => do
    match ← body item with
    | .normal _ => watchLoop body items
    | .returning v => return .returning v

def watchArgs (eval : Path → Expr → Watched Value) (path : Path) :
    List Expr → Watched (List Value)
  | [] => return []
  | e :: es => return (← eval (.part 0 :: path) e) :: (← watchArgs eval (.part 1 :: path) es)

def watchOption (eval : Path → Expr → Watched Value) (path : Path) : Option Expr → Watched Value
  | some e => eval (.part 0 :: path) e
  | none => return .nil

def watchLet (eval : Path → Expr → Watched Value) (s : ScopeId) (path : Path) :
    LetDecl → Watched Value
  | .mk name _ value => do
    step (requireFresh s name)
    let v ← watchOption eval path value
    step (define s name v)
    return v

def watchFields (eval : Path → Expr → Watched Value) (members : ScopeId) (path : Path) :
    List LetDecl → Watched Unit
  | [] => return
  | d :: ds => do
    let _ ← watchLet eval members (.part 0 :: path) d
    watchFields eval members (.part 1 :: path) ds

def watchDef (s : ScopeId) (isMethod : Bool) (d : DefDecl) : Watched Value := do
  step (requireFresh s d.name)
  match Closure.ofDecl s isMethod d with
  | .ok c =>
    step (define s d.name (.function (.closure c)))
    mark (.made c)
    return .function (.closure c)
  | .error param => step (fail (.duplicateParameter param d.name))

def watchMethods (members : ScopeId) : List DefDecl → Watched Unit
  | [] => return
  | d :: ds => do
    let v ← watchDef members true d
    mark (.method members d.name v)
    watchMethods members ds

/-- Opens a scope inside `s` for a block, which is found from the block of `outer`. -/
def watchOpen (s : ScopeId) (own : Bindings Value) (outer : ScopeId) (path : Path)
    (declared : List String) : Watched ScopeId := do
  let inner ← step (openChild s own)
  mark fun _ => .opened inner outer path declared
  return inner

def watchEnter (exec : ScopeId → Path → Stmt → Watched Completion) (c : Closure) (scope : ScopeId)
    (args : List Value) : Watched Value := do
  let inner ← watchOpen scope (Bindings.zip c.params args c.params_nodup) c.scope [.fn c.name]
    (declaredAll c.body)
  step (report (.call c.name args.length))
  match ← watchBlock (exec inner) [] .nil c.body with
  | .returning v =>
    step (report (.returned c.name))
    return v
  | .normal _ => return .nil

/-- Calls a closure. The scope between a method and its object, where the receiver is bound, is at the
place of the object. -/
def watchClosure (exec : ScopeId → Path → Stmt → Watched Completion) (c : Closure)
    (args : List Value) : Watched Value := do
  mark (.called c)
  if c.isMethod then
    match args with
    | receiver :: args =>
      if args.length = c.params.length then
        let scope ← watchOpen c.scope (Bindings.singleton selfName receiver) c.scope [] []
        watchEnter exec c scope args
      else step (fail (.arityMismatch c.name c.params.length args.length))
    | [] => step (fail (.arityMismatch c.name c.params.length (-1)))
  else if args.length = c.params.length then watchEnter exec c c.scope args
  else step (fail (.arityMismatch c.name c.params.length args.length))

def watchCall (exec : ScopeId → Path → Stmt → Watched Completion) (f : Callable)
    (args : List Value) : Watched Value :=
  match f with
  | .native f => step (f.call args)
  | .closure c => watchClosure exec c args
  | .named _ => return .nil

def watchLogical (op : Operator) (right : Watched Value) : Watched Value :=
  return .boolean (← step (requireOperand op (← right)))

def watchBinary (op : Operator) (left right : Watched Value) : Watched Value := do
  match op with
  | .and =>
    if ← step (requireOperand op (← left)) then watchLogical op right else return .boolean false
  | .or =>
    if ← step (requireOperand op (← left)) then return .boolean true else watchLogical op right
  | .add => step (plus (← left) (← right))
  | .sub => step (arithmetic op (· - ·) (· - ·) (← left) (← right))
  | .mul => step (arithmetic op (· * ·) (· * ·) (← left) (← right))
  | .div => step (divide (← left) (← right))
  | .eq => return .boolean (← step (equal (← left) (← right)))
  | .ne => return .boolean !(← step (equal (← left) (← right)))
  | .lt => let a ← left; let b ← right; step (ordering op (a.less? b) a b)
  | .le => let a ← left; let b ← right; step (ordering op (a.lessEq? b) a b)
  | .gt => let a ← left; let b ← right; step (ordering op (b.less? a) a b)
  | .ge => let a ← left; let b ← right; step (ordering op (b.lessEq? a) a b)

end Steps

mutual

/-- The value of an expression, under observation. The expression is found along a path from the block
that its scope was opened for. -/
def watchExpr : (depth : Nat) → ScopeId → Path → Expr → Watched Value
  | 0, _, _, _ => step (throw .tooDeep)
  | depth + 1, s, path, e => noting s path e <|
    match e with
    | .literal value => return value.toValue
    | .group inner => watchExpr depth s (.part 0 :: path) inner
    | .binary symbol left right =>
      match Operator.ofSymbol? symbol with
      | some op => watchBinary op (watchExpr depth s (.part 0 :: path) left)
          (watchExpr depth s (.part 1 :: path) right)
      | none => do
        let _ ← watchExpr depth s (.part 0 :: path) left
        let _ ← watchExpr depth s (.part 1 :: path) right
        step (fail (.defect (.unknownOperator symbol)))
    | .var name => do
      match ← step (lookup s name) with
      | some v => return v
      | none => step (fail (.undefinedName name))
    | .property receiver name => do
      let members ← step (requireObject (← watchExpr depth s (.part 0 :: path) receiver))
      step (member members name)
    | .call name args => do
      match ← step (lookup s name) with
      | some v =>
        let f ← step (requireFunction name v)
        let args ← watchArgs (watchExpr depth s) (.part 0 :: path) args
        watchCall (watchStmt depth) f args
      | none => step (fail (.undefinedFunction name))
    | .methodCall receiver name args => do
      let object ← watchExpr depth s (.part 0 :: path) receiver
      let members ← step (requireObject object)
      let f ← step (requireFunction name (← step (member members name)))
      let args ← watchArgs (watchExpr depth s) (.part 1 :: path) args
      watchCall (watchStmt depth) f (object :: args)
    | .object name fields methods => do
      let members ← step openRoot
      mark fun _ => .opened members s path (fields.map LetDecl.name ++ methods.map DefDecl.name)
      watchFields (watchExpr depth members) members [.part 0] fields
      watchMethods members methods
      return .object name members
    | .misplaced kind => step (fail (.defect (.unhandledExpression kind)))

/-- Runs a statement under observation. -/
def watchStmt : (depth : Nat) → ScopeId → Path → Stmt → Watched Completion
  | 0, _, _, _ => step (throw .tooDeep)
  | depth + 1, s, path, st =>
    match st with
    | .letStmt decl => return .normal (← watchLet (watchExpr depth s) s path decl)
    | .defStmt decl => return .normal (← watchDef s false decl)
    | .ifStmt condition thenBody elseBody => do
      let holds ← step (requireCondition (← watchExpr depth s (.part 0 :: path) condition))
      let body := if holds then thenBody else elseBody
      let inner ← watchOpen s ∅ s (.part (if holds then 1 else 2) :: path) (declaredAll body)
      watchBlock (watchStmt depth inner) [] .nil body
    | .forStmt name iterable body => do
      let items ← step (requireList (← watchExpr depth s (.part 0 :: path) iterable))
      watchLoop (fun item => do
        let inner ← watchOpen s (Bindings.singleton name item) s (.part 1 :: path) (declaredAll body)
        watchBlock (watchStmt depth inner) [] .nil body) items
    | .returnStmt value => return .returning (← watchOption (watchExpr depth s) path value)
    | .exprStmt e => return .normal (← watchExpr depth s (.part 0 :: path) e)
    | .assignStmt (.var name) value => do
      step (requireBound s name)
      let v ← watchExpr depth s (.part 0 :: path) value
      watchAssign s name v
      return .normal v
    | .assignStmt (.property receiver name) value => do
      let members ← step (requireObject (← watchExpr depth s (.part 0 :: path) receiver))
      step (requireMember members name)
      let v ← watchExpr depth s (.part 1 :: path) value
      watchAssign members name v
      return .normal v
    | .assignStmt target _ => step (fail (.invalidTarget target.kind))
    | .misplaced kind => step (fail (.defect (.unhandledStatement kind)))

end

/-- The value of a program, under observation. The scope that it is run in counts as opened for it, and
its block is the whole program. -/
def watch (depth : Nat) (s : ScopeId) (p : Program) : Watched Value := do
  mark fun _ => .opened s s [] p.declared
  match p with
  | .source stmts => step (topLevel (← watchBlock (watchStmt depth s) [] .nil stmts))
  | .stmt st => step (topLevel (← watchStmt depth s [.part 0] st))
  | .expr e => watchExpr depth s [.part 0, .part 0] e

section Run

@[simp] theorem run_pure (a : α) : (pure a : Watched α).run = pure a := rfl

@[simp] theorem run_bind {β : Type} (x : Watched α) (f : α → Watched β) :
    (x >>= f).run = x.run >>= fun a => (f a).run := rfl

@[simp] theorem run_step (x : EvalM α) : (step x).run = x := rfl

@[simp] theorem run_watchAssign (s : ScopeId) (name : String) (v : Value) :
    (watchAssign s name v).run = assign s name v := rfl

@[simp] theorem run_mark (moment : Machine → Moment) : (mark moment).run = pure () := rfl

@[simp] theorem run_noting (s : ScopeId) (path : Path) (e : Expr) (w : Watched Value) :
    (noting s path e w).run = w.run := by
  simp [noting]

@[simp] theorem run_watchOpen (s : ScopeId) (own : Bindings Value) (outer : ScopeId) (path : Path)
    (declared : List String) : (watchOpen s own outer path declared).run = openChild s own := rfl

theorem moments_bind {β : Type} {x : Watched α} {f : α → Watched β} {m : Machine} :
    (x >>= f).moments m = x.moments m ++
      match x.run m with
      | .ok a m' => (f a).moments m'
      | .error _ _ => [] := rfl

/-- What comes later is passed if what is before it ends with a value. -/
theorem mem_moments_bind {β : Type} {x : Watched α} {f : α → Watched β} {m : Machine} {k : Moment} :
    k ∈ (x >>= f).moments m ↔
      k ∈ x.moments m ∨ ∃ a m', x.run m = .ok a m' ∧ k ∈ (f a).moments m' := by
  refine List.mem_append.trans (or_congr_right ?_)
  cases x.run m with
  | ok a m' =>
    constructor
    · exact fun h => ⟨a, m', rfl, h⟩
    · rintro ⟨_, _, heq, h⟩
      cases heq
      exact h
  | error e m' =>
    constructor
    · exact fun h => nomatch h
    · rintro ⟨_, _, heq, _⟩
      cases heq

section Lists

variable {exec : Path → Stmt → Watched Completion} {run : Stmt → EvalM Completion}
  {eval : Path → Expr → Watched Value} {value : Expr → EvalM Value}

theorem run_watchBlock (h : ∀ path st, (exec path st).run = run st) (path : Path) (last : Value)
    (sts : List Stmt) : (watchBlock exec path last sts).run = runBlock run last sts := by
  induction sts generalizing path last with
  | nil => rfl
  | cons st sts ih =>
    rw [runBlock, ← h (.part 0 :: path)]
    refine bind_congr fun c => ?_
    cases c with
    | normal v => exact ih (.part 1 :: path) v
    | returning v => rfl

theorem run_watchLoop {body : Value → Watched Completion} (items : List Value) :
    (watchLoop body items).run = runLoop (fun item => (body item).run) items := by
  induction items with
  | nil => rfl
  | cons item items ih =>
    refine bind_congr fun c => ?_
    cases c with
    | normal v => exact ih
    | returning v => rfl

variable (h : ∀ path e, (eval path e).run = value e)
include h

theorem run_watchArgs (path : Path) (es : List Expr) :
    (watchArgs eval path es).run = evalArgs value es := by
  induction es generalizing path with
  | nil => rfl
  | cons e es ih =>
    rw [evalArgs, ← h (.part 0 :: path), ← ih (.part 1 :: path)]
    rfl

theorem run_watchOption (path : Path) (e : Option Expr) :
    (watchOption eval path e).run = evalOption value e := by
  cases e with
  | none => rfl
  | some e => exact h _ e

theorem run_watchLet (s : ScopeId) (path : Path) (d : LetDecl) :
    (watchLet eval s path d).run = execLet value s d := by
  obtain ⟨name, typeName, e⟩ := d
  refine bind_congr fun _ => ?_
  rw [← run_watchOption h path]
  rfl

theorem run_watchFields (members : ScopeId) (path : Path) (ds : List LetDecl) :
    (watchFields eval members path ds).run = execFields value members ds := by
  induction ds generalizing path with
  | nil => rfl
  | cons d ds ih =>
    rw [execFields, ← ih (.part 1 :: path), ← run_watchLet h members (.part 0 :: path)]
    rfl

end Lists

theorem run_watchDef (s : ScopeId) (isMethod : Bool) (d : DefDecl) :
    (watchDef s isMethod d).run = execDef s isMethod d := by
  refine bind_congr fun _ => ?_
  cases Closure.ofDecl s isMethod d <;> rfl

theorem run_watchMethods (members : ScopeId) (ds : List DefDecl) :
    (watchMethods members ds).run = execMethods members ds := by
  induction ds with
  | nil => rfl
  | cons d ds ih =>
    rw [execMethods, ← ih, ← run_watchDef]
    rfl

section Calls

variable {exec : ScopeId → Path → Stmt → Watched Completion} {run : ScopeId → Stmt → EvalM Completion}
  (h : ∀ s path st, (exec s path st).run = run s st)
include h

theorem run_watchEnter (c : Closure) (scope : ScopeId) (args : List Value) :
    (watchEnter exec c scope args).run = enter run c scope args := by
  refine bind_congr fun inner => bind_congr fun _ => ?_
  rw [← run_watchBlock (h inner) []]
  refine bind_congr fun outcome => ?_
  cases outcome <;> rfl

theorem run_watchClosure (c : Closure) (args : List Value) :
    (watchClosure exec c args).run = callClosure run c args := by
  unfold watchClosure callClosure
  cases args with
  | nil =>
    simp only [run_bind, run_mark, pure_bind, apply_ite Watched.run, run_step, run_watchEnter h]
  | cons receiver args =>
    simp only [run_bind, run_mark, pure_bind, apply_ite Watched.run, run_step, run_watchOpen,
      run_watchEnter h]

theorem run_watchCall (f : Callable) (args : List Value) :
    (watchCall exec f args).run = call run f args := by
  cases f with
  | native f => rfl
  | closure c => exact run_watchClosure h c args
  | named name => rfl

end Calls

theorem run_watchBinary (op : Operator) (left right : Watched Value) :
    (watchBinary op left right).run = binary op left.run right.run := by
  cases op with
  | and | or =>
    refine bind_congr fun v => bind_congr fun b => ?_
    cases b <;> rfl
  | _ => rfl

end Run

theorem run_watch_of_depth (depth : Nat) :
    (∀ s path e, (watchExpr depth s path e).run = evalExpr depth s e) ∧
      ∀ s path st, (watchStmt depth s path st).run = execStmt depth s st := by
  induction depth with
  | zero => exact ⟨fun _ _ _ => rfl, fun _ _ _ => rfl⟩
  | succ depth ih =>
    obtain ⟨heval, hexec⟩ := ih
    constructor
    · intro s path e
      unfold watchExpr evalExpr
      rw [run_noting]
      cases e with
      | literal value => rfl
      | group inner => exact heval s _ inner
      | binary symbol left right =>
        dsimp only
        cases Operator.ofSymbol? symbol with
        | none => simp only [run_bind, run_step, heval]
        | some op => simp only [run_watchBinary, heval]
      | var name =>
        refine bind_congr fun v => ?_
        cases v <;> rfl
      | property receiver name => simp only [run_bind, run_step, heval]
      | call name args =>
        refine bind_congr fun v => ?_
        cases v with
        | none => rfl
        | some v => simp only [run_bind, run_step, run_watchArgs (heval s), run_watchCall hexec]
      | methodCall receiver name args =>
        simp only [run_bind, run_step, run_watchArgs (heval s), run_watchCall hexec, heval]
      | object name fields methods =>
        simp only [run_bind, run_step, run_mark, pure_bind, run_pure, run_watchFields (heval _),
          run_watchMethods]
      | misplaced kind => rfl
    · intro s path st
      unfold watchStmt execStmt
      cases st with
      | letStmt decl => simp only [run_bind, run_pure, run_watchLet (heval s)]
      | defStmt decl => simp only [run_bind, run_pure, run_watchDef]
      | ifStmt condition thenBody elseBody =>
        simp only [run_bind, run_step, run_watchOpen, run_watchBlock (hexec _), heval]
      | forStmt name iterable body =>
        simp only [run_bind, run_step, run_watchLoop, run_watchOpen, run_watchBlock (hexec _), heval]
      | returnStmt value => simp only [run_bind, run_pure, run_watchOption (heval s)]
      | exprStmt e => simp only [run_bind, run_pure, heval]
      | assignStmt target value =>
        cases target with
        | var name => simp only [run_bind, run_step, run_watchAssign, run_pure, heval]
        | property receiver name => simp only [run_bind, run_step, run_watchAssign, run_pure, heval]
        | _ => rfl
      | misplaced kind => rfl

/-- Observing an evaluation does not change it. -/
theorem run_watch (depth : Nat) (s : ScopeId) (p : Program) :
    (watch depth s p).run = evaluate depth s p := by
  obtain ⟨hexpr, hstmt⟩ := run_watch_of_depth depth
  cases p with
  | source stmts =>
    simp only [watch, evaluate, run_bind, run_mark, pure_bind, run_step, run_watchBlock (hstmt s)]
  | stmt st => simp only [watch, evaluate, run_bind, run_mark, pure_bind, run_step, hstmt]
  | expr e => exact hexpr s _ e

end ObjectLang.Evaluation
