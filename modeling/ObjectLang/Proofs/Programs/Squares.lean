import Mathlib.Data.Int.Interval
import Mathlib.Algebra.BigOperators.Intervals
import Mathlib.Data.Int.ConditionallyCompleteOrder
import ObjectLang.Proofs.Evaluation.Runs
import ObjectLang.Proofs.Scope.Parents
import ObjectLang.Proofs.Session

/-!
A loop that adds up. Every turn has a scope of its own for the number that it is at, and writes through
it to the sum, which is bound in the scope around the loop. So the loop leaves nothing but the sum.
-/

namespace ObjectLang

open Forest Evaluation

namespace Squares

/-- `total = total + i * i;` -/
def body : List Stmt :=
  [.assignStmt (.var "total") (.binary "+" (.var "total") (.binary "*" (.var "i") (.var "i")))]

/-- `range(a, b)` -/
def bounds (a b : Int) : Expr := .call "range" [.literal (.integer a), .literal (.integer b)]

/-- `LET total = t; FOR i IN range(a, b) DO total = total + i * i; END total;` -/
def program (a b t : Int) : Program :=
  .source [.letStmt (.mk "total" none (some (.literal (.integer t)))),
    .forStmt "i" (bounds a b) body, .exprStmt (.var "total")]

/-- The entry of the sum. -/
def entry (sum : Int) : String × Value := ("total", .integer sum)

variable {f : ValueScopes} {s : ScopeId} {m : Machine} {sum i : Int}

theorem lookupOwn_total (hs : s < f.size) (h : AddsEntries s [entry sum] f m.scopes) :
    m.scopes.lookupOwn s "total" = some (.integer sum) := by
  have hview : (m.scopes.own s).entries = (f.own s).entries ++ [entry sum] := by
    simpa using h.view_eq s hs
  rw [lookupOwn, Bindings.find?_eq_some_iff, hview]
  exact List.mem_append_right _ (List.mem_singleton_self _)

/-- One turn. Its scope does not have the sum, so the sum is read and assigned in the scope around. -/
theorem concludes_turn (hfresh : "total" ∉ f.names s) (hs : s < f.size)
    (h : AddsEntries s [entry sum] f m.scopes) (i : Int) : ∃ m',
      Concludes m.scopes.size .nil body
        { m with scopes := m.scopes.addChild s (Bindings.singleton "i" (.integer i)) }
        (.ok (.normal (.integer (sum + i * i))) m') ∧
      AddsEntries s [entry (sum + i * i)] f m'.scopes ∧ m'.output = m.output := by
  let turn : Machine :=
    { m with scopes := m.scopes.addChild s (Bindings.singleton "i" (.integer i)) }
  have hturn : AddsEntries s [entry sum] f turn.scopes := h.trans_kept kept_addChild
  have hparent : turn.scopes.parent? m.scopes.size = some s := parent?_addChild
  have hnone : turn.scopes.lookupOwn m.scopes.size "total" = none := lookupOwn_addChild_new
  have htotal := lookupOwn_total hs hturn
  have hi : Evaluates m.scopes.size (.expr (.var "i")) turn (.ok (.integer i) turn) :=
    evaluates_var (lookup_of_own lookupOwn_addChild_new)
  have hsum : Evaluates m.scopes.size
      (.expr (.binary "+" (.var "total") (.binary "*" (.var "i") (.var "i")))) turn
      (.ok (.integer (sum + i * i)) turn) :=
    evaluates_add_integers (evaluates_var (lookup_of_parent hparent hnone htotal))
      (evaluates_mul_integers hi hi)
  have howner := owner_of_parent hparent hnone htotal
  exact ⟨_, concludes_cons (executes_assignVar howner hsum howner) concludes_nil,
    hturn.rebind hfresh _, rfl⟩

/-- By induction on the numbers: each turn adds the square of its own. -/
theorem loops_squares (hfresh : "total" ∉ f.names s) (hs : s < f.size) (numbers : List Int)
    (h : AddsEntries s [entry sum] f m.scopes) : ∃ m',
      Loops s "i" body (numbers.map Value.integer) m (.ok (.normal .nil) m') ∧
      AddsEntries s [entry (sum + (numbers.map fun i => i * i).sum)] f m'.scopes ∧
      m'.output = m.output := by
  induction numbers generalizing m sum with
  | nil => exact ⟨m, loops_nil, by simpa using h, rfl⟩
  | cons i numbers ih =>
    obtain ⟨m₁, hturn, h₁, houtput₁⟩ := concludes_turn hfresh hs h i
    obtain ⟨m', hrest, h', houtput'⟩ := ih h₁
    rw [Int.add_assoc, ← List.sum_cons] at h'
    exact ⟨m', loops_cons hturn hrest, h', houtput'.trans houtput₁⟩

/-- The numbers that a range lists. -/
def listed (a b : Int) : List Int := (List.range (b - a).toNat).map fun (k : Nat) => a + k

theorem integersBetween_eq (a b : Int) :
    Native.integersBetween a b = (listed a b).map Value.integer := by
  rw [Native.integersBetween, listed, List.map_map]
  rfl

theorem sum_listed (a b : Int) (g : Int → Int) :
    ((listed a b).map g).sum = ∑ i ∈ Finset.Ico a b, g i := by
  rw [listed, List.map_map, Int.Ico_eq_finset_map, Finset.sum_map]
  rfl

theorem evaluates_bounds (hrange : m.scopes.lookup s "range" = some (.function (.native .range)))
    (a b : Int) : Evaluates s (.expr (bounds a b)) m
      (.ok (.list ((listed a b).map Value.integer)) m) := by
  rw [← integersBetween_eq]
  exact evaluates_call_native hrange
    (supplies_cons (evaluates_literal ..) (supplies_cons (evaluates_literal ..) supplies_nil)) rfl

/-- In a scope that does not have the sum yet, and sees the function that lists a range. -/
theorem evaluates_program (hs : Placed m.scopes s) (hfresh : "total" ∉ m.scopes.names s)
    (hrange : m.scopes.lookup s "range" = some (.function (.native .range))) (a b t : Int) : ∃ m',
      Evaluates s (program a b t) m (.ok (.integer (t + ∑ i ∈ Finset.Ico a b, i * i)) m') ∧
      AddsEntries s [entry (t + ∑ i ∈ Finset.Ico a b, i * i)] m.scopes m'.scopes ∧
      m'.output = m.output := by
  let declared : Machine := { m with scopes := m.scopes.insert s "total" (.integer t) }
  have hdeclared : AddsEntries s [entry t] m.scopes declared.scopes :=
    addsEntries_insert (Value.integer t) hfresh
  have hrange' : declared.scopes.lookup s "range" = some (.function (.native .range)) :=
    (lookup_insert hs).trans hrange
  obtain ⟨m', hloop, hadds, houtput⟩ := loops_squares hfresh hs.own_lt (listed a b) hdeclared
  rw [sum_listed] at hadds
  have htotal := lookup_of_own (lookupOwn_total hs.own_lt hadds)
  refine ⟨m', evaluates_source ?_, hadds, houtput⟩
  exact concludes_cons (executes_letStmt hs.own_lt hfresh (evaluates_literal ..))
    (concludes_cons (executes_forStmt (evaluates_bounds hrange' a b) hloop)
      (concludes_cons (executes_exprStmt (evaluates_var htotal)) concludes_nil))

end Squares

open Squares in
/-- For all bounds and every number to begin with, in a new scope inside the outermost one, the loop
adds the squares of the integers from the first bound up to the second, which is left out. After it the
scope has the sum and nothing else, no `i` can be seen from there, nothing is written, and all that was
there at the start has the bindings that it had. -/
theorem Session.squares_add_up (fixtures : Bool) (a b t : Int) : ∃ least σ',
    (∀ depth ≥ least, (start .child fixtures).evaluate depth (program a b t) =
      (⟨.ok (.integer (t + ∑ i ∈ Finset.Ico a b, i * i)), ""⟩, σ')) ∧
    σ'.valueScope = (start .child fixtures).valueScope ∧ σ'.valueNames = ["total"] ∧
    σ'.values.lookupOwn σ'.valueScope "total" =
      some (.integer (t + ∑ i ∈ Finset.Ico a b, i * i)) ∧
    σ'.values.lookup σ'.valueScope "i" = none ∧
    BindingsKept (Prelude.values fixtures) σ'.values := by
  let σ := start .child fixtures
  obtain ⟨hplaced, hnew, hnames, hkept⟩ := child_start fixtures
  rw [valueNames] at hnames
  have hfresh : "total" ∉ σ.values.names σ.valueScope := by simp [σ, hnames]
  have hrange : σ.values.lookup σ.valueScope "range" = some (.function (.native .range)) := by
    cases fixtures <;> rfl
  have hi : "i" ∉ σ.values.namesFrom σ.valueScope := by
    cases fixtures <;> decide
  obtain ⟨m, hm, hadds, houtput⟩ :=
    evaluates_program (m := ⟨σ.values, #[], σ.log⟩) hplaced hfresh hrange a b t
  obtain ⟨least, hleast⟩ := evaluate_of_silent hm houtput
  have hnames' : m.scopes.names σ.valueScope = ["total"] := by
    rw [names_of_adds hplaced hadds.names, hnames]
    rfl
  refine ⟨least, { σ with values := m.scopes, log := m.trace }, hleast, rfl, hnames',
    lookupOwn_total hplaced.own_lt hadds, ?_,
    hkept.trans_adds_new (Nat.le_of_eq hnew.symm) hadds⟩
  rw [Option.eq_none_iff_forall_ne_some]
  intro v hv
  have hseen := mem_namesFrom_of_lookup hv
  rw [namesFrom, hnames', namesAround_of_adds hplaced hadds.names, List.mem_append] at hseen
  obtain hown | haround := hseen
  · exact absurd hown (by decide)
  · exact hi (List.mem_append_right _ haround)

end ObjectLang
