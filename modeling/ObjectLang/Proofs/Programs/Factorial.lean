import Mathlib
import ObjectLang.Proofs.Evaluation.Runs
import ObjectLang.Proofs.Scope.Parents
import ObjectLang.Proofs.Session

/-!
A recursive program. Every call of the function runs in a scope of its own, sees its own argument
there after the inner call has returned, and finds the function itself in the scope of the definition;
so it gives the factorial of its argument, and nothing that was there before is any different.
-/

namespace ObjectLang

open Forest Evaluation

namespace Factorial

/-- `IF n <= 1 DO RETURN 1; ELSE RETURN n * factorial(n - 1); END` -/
def body : List Stmt :=
  [.ifStmt (.binary "<=" (.var "n") (.literal (.integer 1)))
    [.returnStmt (some (.literal (.integer 1)))]
    [.returnStmt (some (.binary "*" (.var "n")
      (.call "factorial" [.binary "-" (.var "n") (.literal (.integer 1))])))]]

/-- `DEF factorial(n: Integer): Integer DO ... END` -/
def decl : DefDecl := .mk "factorial" ["n"] [some "Integer"] (some "Integer") body

/-- The definition and a call with the given number. -/
def program (n : Int) : Program :=
  .source [.defStmt decl, .exprStmt (.call "factorial" [.literal (.integer n)])]

/-- The function that the definition makes in a scope. -/
def closure (home : ScopeId) : Closure :=
  ⟨"factorial", ["n"], List.nodup_singleton "n", body, home, false⟩

theorem ofDecl_decl (home : ScopeId) : Closure.ofDecl home false decl = .ok (closure home) := rfl

variable {s home : ScopeId} {m m' : Machine} {e : Expr} {z : Int}

/-- A scope sees the function, and so does the scope that the function was defined in. -/
structure Sees (m : Machine) (home s : ScopeId) : Prop where
  placed : Placed m.scopes s
  lookup : m.scopes.lookup s "factorial" = some (.function (.closure (closure home)))

theorem Sees.of_kept (h : Sees m home s) (hkept : BindingsKept m.scopes m'.scopes) :
    Sees m' home s where
  placed := h.placed.grow (hkept.adds 0)
  lookup := (lookup_of_kept h.placed hkept).trans h.lookup

/-- A new scope sees what is seen around it, if it does not bind the name itself. -/
theorem Sees.addChild {own : Bindings Value} {trace : Array Event} (h : Sees m home s)
    (hown : own.find? "factorial" = none) :
    Sees ⟨m.scopes.addChild s own, m.output, trace⟩ home m.scopes.size where
  placed := placed_addChild h.placed
  lookup := by rw [lookup_addChild h.placed, hown, Option.none_or, h.lookup]

/-- The factorial of a number, which is 1 for all numbers below 1. -/
def value (z : Int) : Int := z.toNat.factorial

theorem value_of_le_one (h : z ≤ 1) : value z = 1 := by
  have hz : z.toNat ≤ 1 := Int.toNat_le.2 h
  rw [value, Nat.factorial_eq_one.2 hz]
  rfl

theorem value_of_one_lt (h : 1 < z) : value z = z * value (z - 1) := by
  have hz : z.toNat = (z - 1).toNat + 1 := by omega
  rw [value, value, hz, Nat.factorial_succ, ← hz]
  push_cast
  rw [Int.toNat_of_nonneg (by omega)]

/-- By induction on the argument. The scope of a call has the argument, and the IF in it runs in one
more scope. -/
theorem evaluates_call_factorial (hhome : Sees m home home) (hs : Sees m home s)
    (he : Evaluates s (.expr e) m (.ok (.integer z) m)) : ∃ m',
      Evaluates s (.expr (.call "factorial" [e])) m (.ok (.integer (value z)) m') ∧
      BindingsKept m.scopes m'.scopes ∧ m'.output = m.output := by
  induction hk : z.toNat using Nat.strong_induction_on generalizing s m e z with
  | _ k ih =>
    let called : Machine := entered m (closure home) [.integer z]
    let chosen : Machine := { called with scopes := called.scopes.addChild m.scopes.size ∅ }
    have hcalled : Sees called home m.scopes.size := hhome.addChild rfl
    have hchosen : Sees chosen home called.scopes.size := hcalled.addChild rfl
    have hkept : BindingsKept m.scopes chosen.scopes := kept_addChild.trans kept_addChild
    have hn : called.scopes.lookup m.scopes.size "n" = some (.integer z) :=
      lookup_of_own lookupOwn_addChild_new
    have hn' : chosen.scopes.lookup called.scopes.size "n" = some (.integer z) := by
      rw [lookup_addChild hcalled.placed, hn]
      rfl
    have hcondition : Evaluates m.scopes.size (.expr (.binary "<=" (.var "n") (.literal (.integer 1))))
        called (.ok (.boolean (z ≤ 1)) called) :=
      evaluates_le_integers (evaluates_var hn) (evaluates_literal _ _ _)
    -- What is left to show is how the chosen branch returns.
    have hcall (m' : Machine) (hbranch : Concludes called.scopes.size .nil
        (if z ≤ 1 then _ else _) chosen (.ok (.returning (.integer (value z))) m')) :
        Evaluates s (.expr (.call "factorial" [e])) m
          (.ok (.integer (value z)) (left m' (closure home))) :=
      evaluates_call hs.lookup rfl (supplies_cons he supplies_nil) rfl
        (concludes_of_returning (executes_ifStmt hcondition (by simpa using hbranch)))
    by_cases hz : z ≤ 1
    · refine ⟨_, hcall chosen ?_, hkept, rfl⟩
      rw [if_pos hz, value_of_le_one hz]
      exact concludes_of_returning (executes_returnStmt (evaluates_literal _ _ _))
    · have hhome' : Sees chosen home home := hhome.of_kept hkept
      have hargument : Evaluates called.scopes.size
          (.expr (.binary "-" (.var "n") (.literal (.integer 1)))) chosen
          (.ok (.integer (z - 1)) chosen) :=
        evaluates_sub_integers (evaluates_var hn') (evaluates_literal _ _ _)
      obtain ⟨m', hrec, hkept', houtput⟩ :=
        ih (z - 1).toNat (by omega) hhome' hchosen hargument rfl
      refine ⟨_, hcall m' ?_, hkept.trans hkept', houtput⟩
      rw [if_neg hz, value_of_one_lt (Int.not_le.1 hz)]
      exact concludes_of_returning
        (executes_returnStmt (evaluates_mul_integers (evaluates_var hn') hrec))

/-- The type of the call in an analysed program. -/
def callType? : Typed.Program Ty → Option Ty
  | .source [_, .exprStmt call] => some call.type
  | _ => none

theorem exists_call {tp : Typed.Program Ty} {type : Ty} (h : callType? tp = some type) : ∃ d call,
    tp = .source [d, .exprStmt call] ∧ call.type = type := by
  unfold callType? at h
  split at h
  · next d call => exact ⟨d, call, rfl, Option.some.inj h⟩
  · cases h

/-- The definition is given the type of the result, and the call has it. -/
theorem analyze_program (fixtures : Bool) (n : Int) : ∃ d call σ,
    (Session.start .child fixtures).analyze (program n) = (.ok (.source [d, .exprStmt call]), σ) ∧
      call.type = .prim .integer := by
  have htype : ((Session.start .child fixtures).analyze (program n)).1.toOption.bind callType? =
      some (.prim .integer) := by cases fixtures <;> cbv
  rcases hanalysis : (Session.start .child fixtures).analyze (program n) with ⟨_ | tp, σ⟩
  · simp [hanalysis, Except.toOption] at htype
  · rw [hanalysis] at htype
    obtain ⟨d, call, rfl, hcall⟩ := exists_call htype
    exact ⟨d, call, σ, rfl, hcall⟩

/-- In a scope that does not have the name, the definition is made and the call is run. -/
theorem evaluates_program {s : ScopeId} {m : Machine} (hs : Placed m.scopes s)
    (hfresh : "factorial" ∉ m.scopes.names s) (n : Int) : ∃ m',
      Evaluates s (program n) m (.ok (.integer (value n)) m') ∧
      AddsEntries s [("factorial", .function (.closure (closure s)))] m.scopes m'.scopes ∧
      m'.output = m.output := by
  have hadds := addsEntries_insert (.function (.closure (closure s))) hfresh
  let defined : Machine :=
    { m with scopes := m.scopes.insert s "factorial" (.function (.closure (closure s))) }
  have hsees : Sees defined s s := ⟨hs.grow hadds, by rw [lookup_insert hs, if_pos rfl]⟩
  have hargument : Evaluates s (.expr (.literal (.integer n))) defined (.ok (.integer n) defined) :=
    evaluates_literal _ _ _
  obtain ⟨m', hcall, hkept, houtput⟩ := evaluates_call_factorial hsees hsees hargument
  refine ⟨m', ?_, hadds.trans_kept hkept, houtput⟩
  exact evaluates_source (concludes_cons (executes_defStmt hfresh (ofDecl_decl s))
    (concludes_cons (executes_exprStmt hcall) concludes_nil))

/-- In a scope right inside the outermost one, in which nothing has been evaluated. -/
theorem evaluate_program {fixtures : Bool} {σ : Session}
    (hvalues : σ.values = (Session.start .child fixtures).values)
    (hscope : σ.valueScope = (Session.start .child fixtures).valueScope) (n : Int) : ∃ least σ',
      (∀ depth ≥ least, σ.evaluate depth (program n) = (⟨.ok (.integer (value n)), ""⟩, σ')) ∧
      BindingsKept (Prelude.values fixtures) σ'.values := by
  obtain ⟨hplaced, hnew, hnames, hkept⟩ := Session.child_start fixtures
  rw [Session.valueNames] at hnames
  rw [← hvalues, ← hscope] at hplaced hnames
  rw [← hvalues] at hkept
  rw [← hscope] at hnew
  have hfresh : "factorial" ∉ σ.values.names σ.valueScope := by simp [hnames]
  obtain ⟨m, hm, hadds, houtput⟩ := evaluates_program (m := ⟨σ.values, #[], σ.log⟩) hplaced hfresh n
  obtain ⟨least, hleast⟩ := Session.evaluate_of_silent hm houtput
  exact ⟨least, { σ with values := m.scopes, log := m.trace }, hleast,
    hkept.trans_adds_new (Nat.le_of_eq hnew.symm) hadds⟩

end Factorial

open Factorial in
/-- For every number, analysis gives the call of the factorial the type of the integers, and
evaluation in a new scope inside the outermost one gives the factorial of a positive number and 1 for
all others. It writes nothing, and all that was there at the start has the bindings that it had. -/
theorem Session.factorial_of_every_number (fixtures : Bool) (n : Int) : ∃ d call σ,
    (Session.start .child fixtures).analyze (program n) = (.ok (.source [d, .exprStmt call]), σ) ∧
      call.type = .prim .integer ∧
      ∃ least σ', (∀ depth ≥ least, σ.evaluate depth (program n) =
        (⟨.ok (.integer (if 1 ≤ n then (n.toNat.factorial : Int) else 1)), ""⟩, σ')) ∧
      BindingsKept (Prelude.values fixtures) σ'.values := by
  obtain ⟨d, call, σ, hanalysis, htype⟩ := analyze_program fixtures n
  obtain ⟨hvalues, hscope⟩ := (Session.start .child fixtures).analyze_values (program n)
  rw [hanalysis] at hvalues hscope
  have hvalue : value n = if 1 ≤ n then (n.toNat.factorial : Int) else 1 := by
    split
    · rfl
    · exact value_of_le_one (by omega)
  rw [← hvalue]
  exact ⟨d, call, σ, hanalysis, htype, evaluate_program hvalues hscope n⟩

end ObjectLang
