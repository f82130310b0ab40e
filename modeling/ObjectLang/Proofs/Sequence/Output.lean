import ObjectLang.Proofs.Shift.Evaluation

/-!
What a run has written before does not matter to what it does next. Two runs from the same scopes
with other output are two runs whose scopes have the same numbers.
-/

namespace ObjectLang

/-- All scopes have the same numbers in both runs. -/
def Shift.still : Shift := ⟨0, 0, []⟩

theorem Shift.still_move (s : ScopeId) : Shift.still.move s = s := rfl

variable {Γ Δ : ValueScopes}

namespace Value

theorem callable_eq_of_still {f g : Callable} (h : f.Moved .still g) : f = g := by cases h <;> rfl

mutual

theorem eq_of_still (v : Value) {w : Value} (h : v.Moved .still w) : v = w := by
  match v, h with
  | .nil, .nil | .boolean _, .boolean _ | .integer _, .integer _ | .decimal _, .decimal _
  | .string _, .string _ | .character _, .character _ => rfl
  | .list vs, .list hvs => rw [eq_of_still_all vs hvs]
  | .function _, .function hf => rw [callable_eq_of_still hf]
  | .object _ _, .object _ _ => rw [Shift.still_move]

theorem eq_of_still_all (vs : List Value) {ws : List Value}
    (h : List.Forall₂ (Moved .still) vs ws) : vs = ws := by
  match vs, h with
  | [], .nil => rfl
  | v :: vs, .cons hv hvs => rw [eq_of_still v hv, eq_of_still_all vs hvs]

end

mutual

theorem still_refl (v : Value) : v.Moved .still v := by
  match v with
  | .nil => exact .nil
  | .boolean b => exact .boolean b
  | .integer n => exact .integer n
  | .decimal d => exact .decimal d
  | .string s => exact .string s
  | .character c => exact .character c
  | .list vs => exact .list (still_refl_all vs)
  | .function (.native f) => exact .function (.native f)
  | .function (.named name) => exact .function (.named name)
  | .function (.closure c) => exact .function (.closure c (blockAvoids_nil c.body))
  | .object name a => exact .object name (Nat.zero_le a)

theorem still_refl_all (vs : List Value) : List.Forall₂ (Moved .still) vs vs := by
  match vs with
  | [] => exact .nil
  | v :: vs => exact .cons (still_refl v) (still_refl_all vs)

end

end Value

namespace Forest

theorem still_refl (Γ : ValueScopes) : Γ.Moved .still Γ where
  base_le := Nat.zero_le _
  size_eq := rfl
  outer_eq s := (List.map_id (Γ.outer s)).symm
  new _ _ := Bindings.aligned_self fun e _ => e.2.still_refl
  old s hs := absurd hs (Nat.not_lt_zero s)

theorem eq_of_still (h : Γ.Moved .still Δ) : Γ = Δ := by
  refine ext_frames h.size_eq.symm (fun s => ?_) fun s => ?_
  · rw [← Shift.still_move s, h.outer_eq s]
    exact (List.map_id (Γ.outer s)).symm
  · refine Bindings.ext_entries (List.forall₂_eq_eq_eq ▸ ?_)
    refine List.Forall₂.imp (fun e d he => ?_) (h.new s (Nat.zero_le s))
    exact Prod.ext he.1 (e.2.eq_of_still he.2)

end Forest

/-- A machine with lines that were written before. -/
def Machine.after (lines : Array String) (m : Machine) : Machine :=
  { m with output := lines ++ m.output }

namespace Evaluation

variable {α : Type} {x : EvalM Value}

/-- The end of a run with lines that were written before. -/
def afterResult (lines : Array String) :
    EStateM.Result Fault Machine α → EStateM.Result Fault Machine α
  | .ok a m => .ok a (m.after lines)
  | .error e m => .error e (m.after lines)

/-- What was written before a run is kept, and has no other effect. -/
def Blind (x : EvalM α) : Prop := ∀ lines m, x (m.after lines) = afterResult lines (x m)

theorem meet_after (lines : Array String) (m : Machine) :
    (TwoRuns.mk m (m.after lines) : TwoRuns .still).Meet m (m.after lines) where
  scopes := Forest.still_refl m.scopes
  output := ⟨#[], Array.append_empty.symm, Array.append_empty.symm⟩
  trace := ⟨#[], Array.append_empty.symm, Array.append_empty.symm⟩

theorem eq_after_of_meet {lines : Array String} {m m₁ m₁' : Machine}
    (h : (TwoRuns.mk m (m.after lines) : TwoRuns .still).Meet m₁ m₁') : m₁' = m₁.after lines := by
  obtain ⟨hscopes, ⟨written, hleft, hright⟩, events, htrace, htrace'⟩ := h
  obtain ⟨scopes, output, trace⟩ := m₁
  obtain ⟨scopes', output', trace'⟩ := m₁'
  obtain rfl : scopes = scopes' := Forest.eq_of_still hscopes
  obtain rfl : output = m.output ++ written := hleft
  obtain rfl : trace = m.trace ++ events := htrace
  obtain rfl : trace' = m.trace ++ events := htrace'
  obtain rfl : output' = lines ++ m.output ++ written := hright
  rw [Machine.after, Array.append_assoc]

theorem blind_of_mirrors (h : ∀ T : TwoRuns .still, Mirrors T (Value.Moved .still) x x) :
    Blind x := by
  intro lines m
  have hend := h ⟨m, m.after lines⟩ m (m.after lines) (meet_after lines m)
  generalize x m = r, x (m.after lines) = r' at hend
  cases hend with
  | ok hv hm => rw [afterResult, Value.eq_of_still _ hv, eq_after_of_meet hm]
  | error e hm => rw [afterResult, eq_after_of_meet hm]

end Evaluation

end ObjectLang
