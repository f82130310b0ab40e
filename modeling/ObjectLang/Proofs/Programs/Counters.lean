import Mathlib.Logic.Function.Basic
import ObjectLang.Proofs.Evaluation.Runs
import ObjectLang.Proofs.Scope.Parents

/-!
Counters that are made by one function. Every call of it opens a scope with a number of its own, and
what it returns counts in that scope, wherever it is called. So the counters count each their own
calls, in whatever order they are called.
-/

namespace ObjectLang

open Forest Evaluation

namespace Counters

/-- `n = n + 1; RETURN n;` -/
def nextBody : List Stmt :=
  [.assignStmt (.var "n") (.binary "+" (.var "n") (.literal (.integer 1))),
    .returnStmt (some (.var "n"))]

/-- `DEF next() DO ... END` -/
def nextDecl : DefDecl := .mk "next" [] [] none nextBody

/-- `LET n = 0; DEF next() DO ... END RETURN next;` -/
def counterBody : List Stmt :=
  [.letStmt (.mk "n" none (some (.literal (.integer 0)))), .defStmt nextDecl,
    .returnStmt (some (.var "next"))]

/-- `DEF counter() DO ... END` -/
def counterDecl : DefDecl := .mk "counter" [] [] none counterBody

/-- The counters are called `c1`, `c2` and so on. -/
def name (i : Nat) : String := "c" ++ (i + 1).repr

/-- `LET ci = counter();` -/
def letCounter (i : Nat) : Stmt := .letStmt (.mk (name i) none (some (.call "counter" [])))

/-- `DEF counter() DO ... END LET c1 = counter(); ... LET cm = counter();` -/
def program (m : Nat) : Program := .source (.defStmt counterDecl :: (List.range m).map letCounter)

/-- `ci()` -/
def tick (i : Nat) : Program := .expr (.call (name i) [])

theorem name_injective {i j : Nat} (h : name i = name j) : i = j := by
  have hdigits := congrArg String.toList ((String.append_right_inj "c").1 h)
  rw [Nat.toList_repr, Nat.toList_repr] at hdigits
  have hread (n : Nat) : Nat.ofDigitChars 10 (Nat.toDigits 10 n) 0 = n :=
    Nat.ofDigitChars_toDigits (by decide) (by decide)
  have hnumber := congrArg (Nat.ofDigitChars 10 · 0) hdigits
  simp only [hread] at hnumber
  exact Nat.succ.inj hnumber

theorem name_ne_counter (i : Nat) : name i ≠ "counter" := by
  intro h
  have hrest : (i + 1).repr = "ounter" := (String.append_right_inj "c").1 h
  have hmem : 'o' ∈ Nat.toDigits 10 (i + 1) := by
    rw [← Nat.toList_repr, hrest]
    decide
  exact absurd (Nat.isDigit_of_mem_toDigits (by decide) (by decide) hmem) (by decide)

/-- The function that a definition of `next` makes in a scope. -/
def nextClosure (home : ScopeId) : Closure := ⟨"next", [], List.nodup_nil, nextBody, home, false⟩

/-- The function that the definition of `counter` makes in a scope. -/
def counterClosure (home : ScopeId) : Closure :=
  ⟨"counter", [], List.nodup_nil, counterBody, home, false⟩

variable {s base made total i : Nat} {m : Machine} {f : ValueScopes} {count : Nat → Int}

/-- The first counters, as many as are made, are bound in the scope `s`. Each counts in a scope of its
own, and these come one after another from `base` on. -/
structure Counting (f : ValueScopes) (s base made : Nat) (count : Nat → Int) : Prop where
  outside : s < base
  size_le : base + made ≤ f.size
  bound : ∀ i < made, f.lookupOwn s (name i) = some (.function (.closure (nextClosure (base + i))))
  counted : ∀ i < made, f.lookupOwn (base + i) "n" = some (.integer (count i))

/-- A call of a counter opens a scope and changes the number of that counter. -/
theorem Counting.tick (h : Counting f s base made count) (hi : i < made) :
    Counting ((f.addChild (base + i) ∅).insert (base + i) "n" (.integer (count i + 1))) s base made
      (Function.update count i (count i + 1)) := by
  have houtside := h.outside
  have hsize := h.size_le
  have hs : s < f.size := by omega
  have hapart : s ≠ base + i := by omega
  have hhome {j : Nat} (hj : j < made) : base + j < f.size := by omega
  refine ⟨houtside, by simpa using Nat.le_succ_of_le hsize, fun j hj => ?_, fun j hj => ?_⟩
  · rw [lookupOwn_insert_of_scope_ne hapart, lookupOwn_addChild_of_lt hs, h.bound j hj]
  · by_cases hji : j = i
    · subst hji
      have hlt : base + j < (f.addChild (base + j) ∅).size := by simpa using Nat.lt_succ_of_lt (hhome hi)
      rw [lookupOwn_insert_self hlt, Function.update_self]
    · have hother : base + j ≠ base + i := fun heq => hji (Nat.add_left_cancel heq)
      rw [lookupOwn_insert_of_scope_ne hother, lookupOwn_addChild_of_lt (hhome hj), h.counted j hj,
        Function.update_of_ne hji]

theorem evaluates_tick (h : Counting m.scopes s base made count) (hi : i < made) : ∃ m',
    Evaluates s (tick i) m (.ok (.integer (count i + 1)) m') ∧ m'.output = m.output ∧
      Counting m'.scopes s base made (Function.update count i (count i + 1)) := by
  let home := base + i
  let called : Machine := entered m (nextClosure home) []
  let counted : Machine :=
    { called with scopes := called.scopes.insert home "n" (.integer (count i + 1)) }
  have hhome : home < m.scopes.size := lt_size_of_lookupOwn (h.counted i hi)
  have hhome' : home < called.scopes.size := by simpa [called, entered] using Nat.lt_succ_of_lt hhome
  -- The scope of the call binds nothing, so `n` is read and assigned in the one around it.
  have hparent : called.scopes.parent? m.scopes.size = some home := parent?_addChild
  have hnone : called.scopes.lookupOwn m.scopes.size "n" = none := lookupOwn_addChild_new
  have hn : called.scopes.lookupOwn home "n" = some (.integer (count i)) :=
    (lookupOwn_addChild_of_lt hhome).trans (h.counted i hi)
  have howner := owner_of_parent hparent hnone hn
  have hsum : Evaluates m.scopes.size (.expr (.binary "+" (.var "n") (.literal (.integer 1)))) called
      (.ok (.integer (count i + 1)) called) :=
    evaluates_add_integers (evaluates_var (lookup_of_parent hparent hnone hn))
      (evaluates_literal _ _ _)
  have hcounted : counted.scopes.lookup m.scopes.size "n" = some (.integer (count i + 1)) := by
    refine lookup_of_parent (parent?_insert.trans hparent) ?_ (lookupOwn_insert_self hhome')
    rw [lookupOwn_insert_of_scope_ne (Nat.ne_of_gt hhome), hnone]
  refine ⟨left counted (nextClosure home), ?_, rfl, h.tick hi⟩
  exact evaluates_call (lookup_of_own (h.bound i hi)) rfl supplies_nil rfl
    (concludes_cons (executes_assignVar howner hsum howner)
      (concludes_of_returning (executes_returnStmt (evaluates_var hcounted))))

/-- The counters that are made have counted nothing, and the others can be made. -/
structure Ready (f : ValueScopes) (s base made total : Nat) : Prop
    extends Counting f s base made (fun _ => 0) where
  size_eq : f.size = base + made
  maker : f.lookupOwn s "counter" = some (.function (.closure (counterClosure s)))
  free : ∀ i, made ≤ i → i < total → f.lookupOwn s (name i) = none

/-- A counter that is made gets the next scope to count in. -/
theorem Ready.make {own : Bindings Value} (h : Ready f s base made total)
    (hown : own.find? "n" = some (.integer 0)) :
    Ready ((f.addChild s own).insert s (name made) (.function (.closure (nextClosure f.size))))
      s base (made + 1) total := by
  have houtside := h.outside
  have hsize := h.size_eq
  have hs : s < f.size := lt_size_of_lookupOwn h.maker
  have hs' : s < (f.addChild s own).size := by simpa using Nat.lt_succ_of_lt hs
  have hold {other : String} (hname : other ≠ name made) :
      ((f.addChild s own).insert s (name made) (.function (.closure (nextClosure f.size)))).lookupOwn
        s other = f.lookupOwn s other := by
    rw [lookupOwn_insert_of_name_ne hs' hname, lookupOwn_addChild_of_lt hs]
  refine ⟨⟨houtside, ?_, fun i hi => ?_, fun i hi => ?_⟩, ?_, ?_, fun i hmade hi => ?_⟩
  · rw [size_insert, size_addChild]
    omega
  · rcases Nat.lt_succ_iff_lt_or_eq.1 hi with hi | rfl
    · rw [hold fun hname => Nat.ne_of_lt hi (name_injective hname), h.bound i hi]
    · rw [lookupOwn_insert_self hs', hsize]
  · have hapart : base + i ≠ s := by omega
    rw [lookupOwn_insert_of_scope_ne hapart]
    rcases Nat.lt_succ_iff_lt_or_eq.1 hi with hi | rfl
    · have hhome : base + i < f.size := by omega
      rw [lookupOwn_addChild_of_lt hhome, h.counted i hi]
    · rw [← hsize, lookupOwn_addChild_new, hown]
  · rw [size_insert, size_addChild]
    omega
  · rw [hold (name_ne_counter made).symm, h.maker]
  · rw [hold fun hname => Nat.ne_of_gt hmade (name_injective hname)]
    exact h.free i (Nat.le_of_succ_le hmade) hi

/-- A call of `counter` opens one scope, in which nothing has been counted, and gives a function that
counts there. -/
theorem evaluates_call_counter
    (h : m.scopes.lookup s "counter" = some (.function (.closure (counterClosure s)))) : ∃ own m',
      Evaluates s (.expr (.call "counter" [])) m
        (.ok (.function (.closure (nextClosure m.scopes.size))) m') ∧
      m'.output = m.output ∧ m'.scopes = m.scopes.addChild s own ∧
      own.find? "n" = some (.integer 0) := by
  let home := m.scopes.size
  let next : Value := .function (.closure (nextClosure home))
  let called : Machine := entered m (counterClosure s) []
  let counted : Machine := { called with scopes := called.scopes.insert home "n" (.integer 0) }
  let defined : Machine := { counted with scopes := counted.scopes.insert home "next" next }
  -- What the body binds could have been in the new scope from the start.
  have hcounted : counted.scopes = m.scopes.addChild s (Bindings.insert ∅ "n" (.integer 0)) :=
    insert_addChild _ _ _ _ _
  have hdefined : defined.scopes =
      m.scopes.addChild s ((Bindings.insert ∅ "n" (.integer 0)).insert "next" next) := by
    show counted.scopes.insert home "next" next = _
    rw [hcounted, insert_addChild]
  have hn : "n" ∉ called.scopes.names home := Bindings.find?_eq_none_iff.1 lookupOwn_addChild_new
  have hnext : "next" ∉ counted.scopes.names home := by
    rw [hcounted]
    exact Bindings.find?_eq_none_iff.1 lookupOwn_addChild_new
  have hbound : defined.scopes.lookup home "next" = some next := by
    rw [hdefined]
    exact lookup_of_own lookupOwn_addChild_new
  refine ⟨_, left defined (counterClosure s), ?_, rfl, hdefined, rfl⟩
  exact evaluates_call h rfl supplies_nil rfl
    (concludes_cons (executes_letStmt (by simp [entered]) hn (evaluates_literal _ _ _))
      (concludes_cons (executes_defStmt hnext rfl)
        (concludes_of_returning (executes_returnStmt (evaluates_var hbound)))))

theorem executes_letCounter (h : Ready m.scopes s base made total) (hmade : made < total) : ∃ m' v,
    Executes s (letCounter made) m (.ok (.normal v) m') ∧ m'.output = m.output ∧
      Ready m'.scopes s base (made + 1) total := by
  obtain ⟨own, m', hcall, houtput, hscopes, hown⟩ := evaluates_call_counter (lookup_of_own h.maker)
  have hs : s < m.scopes.size := lt_size_of_lookupOwn h.maker
  have hfree : name made ∉ m.scopes.names s :=
    Bindings.find?_eq_none_iff.1 (h.free made (Nat.le_refl _) hmade)
  refine ⟨_, _, executes_letStmt hs hfree hcall, houtput, ?_⟩
  show Ready (m'.scopes.insert s (name made) _) s base (made + 1) total
  rw [hscopes]
  exact h.make hown

/-- By induction on the number of counters that are still to be made. -/
theorem concludes_letCounters (last : Value) (k : Nat) (h : Ready m.scopes s base made total)
    (hk : made + k = total) : ∃ m' v,
      Concludes s last ((List.range' made k).map letCounter) m (.ok (.normal v) m') ∧
      m'.output = m.output ∧ Ready m'.scopes s base total total := by
  induction k generalizing m made last with
  | zero => exact ⟨m, last, concludes_nil, rfl, by simpa [← hk] using h⟩
  | succ k ih =>
    obtain ⟨m₁, v, hlet, houtput, hready⟩ := executes_letCounter h (by omega)
    obtain ⟨m', w, hrest, houtput', hready'⟩ := ih v hready (by omega)
    exact ⟨m', w, concludes_cons hlet hrest, houtput'.trans houtput, hready'⟩

/-- Where none of the names is taken, all of the counters are made. -/
theorem evaluates_program (hs : s < m.scopes.size) (hcounter : "counter" ∉ m.scopes.names s)
    (hnames : ∀ i < total, name i ∉ m.scopes.names s) : ∃ m' v,
      Evaluates s (program total) m (.ok v m') ∧ m'.output = m.output ∧
      Counting m'.scopes s m.scopes.size total (fun _ => 0) := by
  let defined : Machine := { m with
    scopes := m.scopes.insert s "counter" (.function (.closure (counterClosure s))) }
  have hready : Ready defined.scopes s m.scopes.size 0 total := by
    refine ⟨⟨hs, by simp [defined], by simp, by simp⟩, by simp [defined],
      lookupOwn_insert_self hs, fun i _ hi => ?_⟩
    rw [lookupOwn_insert_of_name_ne hs (name_ne_counter i)]
    exact Bindings.find?_eq_none_iff.2 (hnames i hi)
  obtain ⟨m', v, hlets, houtput, hready'⟩ := concludes_letCounters _ total hready (Nat.zero_add _)
  refine ⟨m', v, evaluates_source ?_, houtput, hready'.toCounting⟩
  rw [List.range_eq_range']
  exact concludes_cons (executes_defStmt hcounter rfl) hlets

end Counters

namespace Session

open Counters

/-- The outcomes of programs that are evaluated one after another. -/
def evaluateEach (depth : Nat) (σ : Session) : List Program → List Outcome
  | [] => []
  | p :: ps => (σ.evaluate depth p).1 :: (σ.evaluate depth p).2.evaluateEach depth ps

variable {σ : Session} {base total : Nat} {count : Nat → Int}

theorem update_add_count (i j : Fin total) (calls : List (Fin total)) :
    Function.update count i (count i + 1) j + calls.count j = count j + (i :: calls).count j := by
  by_cases hij : i = j
  · subst hij
    rw [Function.update_self, List.count_cons_self]
    omega
  · rw [Function.update_of_ne fun h => hij (Fin.ext h.symm), List.count_cons_of_ne hij]

/-- By induction on the calls: each adds to what has been counted before it. -/
theorem evaluateEach_ticks (h : Counting σ.values σ.valueScope base total count)
    (calls : List (Fin total)) : ∃ least, ∀ depth ≥ least,
      σ.evaluateEach depth (calls.map fun i : Fin total => tick i) =
        List.ofFn fun k : Fin calls.length =>
          ⟨.ok (.integer (count calls[k] + (calls.take (k + 1)).count calls[k])), ""⟩ := by
  induction calls generalizing σ count with
  | nil => exact ⟨0, fun _ _ => rfl⟩
  | cons i calls ih =>
    obtain ⟨m, hm, houtput, hcounting⟩ := evaluates_tick (m := ⟨σ.values, #[], σ.log⟩) h i.isLt
    obtain ⟨least, hleast⟩ := evaluate_of_silent hm houtput
    obtain ⟨least', hleast'⟩ := ih (σ := { σ with values := m.scopes, log := m.trace }) hcounting
    refine ⟨max least least', fun depth hdepth => ?_⟩
    obtain ⟨hdepth, hdepth'⟩ := Nat.max_le.1 hdepth
    rw [List.map_cons, evaluateEach, hleast depth hdepth, hleast' depth hdepth']
    have hfirst : count i + ((i :: calls).take 1).count i = count i + 1 := by simp
    rw [List.ofFn_succ]
    refine congrArg₂ List.cons ?_ ?_
    · rw [← hfirst]
      rfl
    · simp only [update_add_count]
      rfl

/-- In any session in which the names are not taken, as many counters as one likes are made, and each
counts its own calls, in whatever order they are called: a call gives how often its counter has been
called by then. -/
theorem counters_count_their_calls (hscope : σ.valueScope < σ.values.size)
    (hcounter : "counter" ∉ σ.valueNames) (hnames : ∀ i < total, name i ∉ σ.valueNames)
    (calls : List (Fin total)) : ∃ least, ∀ depth ≥ least, ∃ v,
      σ.evaluateEach depth (program total :: calls.map fun i : Fin total => tick i) =
        ⟨.ok v, ""⟩ :: List.ofFn fun k : Fin calls.length =>
          ⟨.ok (.integer ((calls.take (k + 1)).count calls[k])), ""⟩ := by
  obtain ⟨m, v, hm, houtput, hcounting⟩ :=
    evaluates_program (m := ⟨σ.values, #[], σ.log⟩) hscope hcounter hnames
  obtain ⟨least, hleast⟩ := evaluate_of_silent hm houtput
  obtain ⟨least', hleast'⟩ :=
    evaluateEach_ticks (σ := { σ with values := m.scopes, log := m.trace }) hcounting calls
  refine ⟨max least least', fun depth hdepth => ⟨v, ?_⟩⟩
  obtain ⟨hdepth, hdepth'⟩ := Nat.max_le.1 hdepth
  rw [evaluateEach, hleast depth hdepth, hleast' depth hdepth']
  simp only [Int.zero_add]

/-- Two counters that are called by turns. -/
theorem counters_count_their_calls_turns :
    (start .child false).valueScope < (start .child false).values.size ∧
    "counter" ∉ (start .child false).valueNames ∧
    (∀ i < 2, name i ∉ (start .child false).valueNames) ∧
    ∃ least, ∀ depth ≥ least, ∃ v,
      (start .child false).evaluateEach depth [program 2, tick 0, tick 1, tick 0, tick 0, tick 1] =
        [⟨.ok v, ""⟩, ⟨.ok (.integer 1), ""⟩, ⟨.ok (.integer 1), ""⟩, ⟨.ok (.integer 2), ""⟩,
          ⟨.ok (.integer 3), ""⟩, ⟨.ok (.integer 2), ""⟩] := by
  have hscope : (start .child false).valueScope < (start .child false).values.size := by decide
  have hcounter : "counter" ∉ (start .child false).valueNames := by decide
  have hnames : ∀ i < 2, name i ∉ (start .child false).valueNames := by decide
  exact ⟨hscope, hcounter, hnames, counters_count_their_calls hscope hcounter hnames [0, 1, 0, 0, 1]⟩

end Session

end ObjectLang
