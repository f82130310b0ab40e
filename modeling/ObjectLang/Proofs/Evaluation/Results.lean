import ObjectLang.Evaluation.Rules
import ObjectLang.Proofs.Evaluation.Steps

/-!
How programs end when there is depth enough for them. An expression with an operator ends as the
operator does on what its operands have come to.
-/

namespace ObjectLang.Evaluation

/-- However a run ends, and the state that it ends in. -/
abbrev Ending := EStateM.Result Fault Machine Value

/-- With enough depth, evaluating the program from the state `m` ends like this. -/
def Evaluates (s : ScopeId) (p : Program) (m : Machine) (r : Ending) : Prop :=
  ∃ least, ∀ depth ≥ least, evaluate depth s p m = r

variable {s : ScopeId} {m m₁ m₂ : Machine} {r r' : Ending} {x y : Expr} {a b : Value}

theorem Evaluates.unique {p : Program} (h : Evaluates s p m r) (h' : Evaluates s p m r') :
    r = r' := by
  obtain ⟨least, hr⟩ := h
  obtain ⟨least', hr'⟩ := h'
  exact (hr _ (Nat.le_max_left least least')).symm.trans (hr' _ (Nat.le_max_right least least'))

/-- An expression ends like its parts, which have one level less to go. -/
theorem evaluates_of_succ {e : Expr} (least : Nat)
    (h : ∀ depth ≥ least, evalExpr (depth + 1) s e m = r) : Evaluates s (.expr e) m r := by
  refine ⟨least + 1, fun depth hdepth => ?_⟩
  obtain ⟨d, rfl⟩ := Nat.exists_eq_add_of_le' (Nat.le_of_add_left_le hdepth)
  exact h d (Nat.le_of_add_le_add_right hdepth)

theorem evaluates_literal (s : ScopeId) (m : Machine) (value : Literal) :
    Evaluates s (.expr (.literal value)) m (.ok value.toValue m) :=
  evaluates_of_succ 0 fun _ _ => rfl

theorem evaluates_var {name : String} (h : m.scopes.lookup s name = some a) :
    Evaluates s (.expr (.var name)) m (.ok a m) := by
  refine evaluates_of_succ 0 fun _ _ => ?_
  simp only [evalExpr, bind_apply, lookup_apply, h]
  rfl

theorem evaluates_group (h : Evaluates s (.expr x) m r) : Evaluates s (.expr (.group x)) m r := by
  obtain ⟨least, hr⟩ := h
  exact evaluates_of_succ least hr

section Operands

variable {op : Operator} {left left' right right' : EvalM Value}

/-- An operator runs its left operand where it starts itself, and the right one where the left one
has ended, if it runs it at all. -/
theorem binary_congr (hl : left m = left' m)
    (hr : ∀ a m₁, left m = .ok a m₁ → right m₁ = right' m₁) :
    binary op left right m = binary op left' right' m := by
  have hboth (f : Value → Value → EvalM Value) :
      (do f (← left) (← right) : EvalM Value) m = (do f (← left') (← right') : EvalM Value) m :=
    bind_congr_at hl fun a m₁ ha => bind_congr_at (hr a m₁ ha) fun _ _ _ => rfl
  have hlogical (a : Value) (m₁ m₂ : Machine) (holds : Bool) (ha : left m = .ok a m₁)
      (hholds : requireOperand op a m₁ = .ok holds m₂) :
      logical op right m₂ = logical op right' m₂ := by
    obtain rfl : m₁ = m₂ := (keeps_requireOperand op a).of_ok hholds
    exact bind_congr_at (hr a m₁ ha) fun _ _ _ => rfl
  cases op with
  | and =>
    refine bind_congr_at hl fun a m₁ ha => bind_congr_at rfl fun holds m₂ hholds => ?_
    cases holds with
    | true => exact hlogical a m₁ m₂ true ha hholds
    | false => rfl
  | or =>
    refine bind_congr_at hl fun a m₁ ha => bind_congr_at rfl fun holds m₂ hholds => ?_
    cases holds with
    | true => rfl
    | false => exact hlogical a m₁ m₂ false ha hholds
  | add => exact hboth plus
  | sub | mul => exact hboth _
  | div => exact hboth divide
  | eq => exact hboth fun a b => return .boolean (← equal a b)
  | ne => exact hboth fun a b => return .boolean !(← equal a b)
  | lt | le | gt | ge => exact hboth fun a b => ordering _ _ a b

end Operands

/-- The operator is applied to what the operands have come to. -/
theorem evaluates_binary (op : Operator) (hx : Evaluates s (.expr x) m r)
    (hy : ∀ a m₁, r = .ok a m₁ → Evaluates s (.expr y) m₁ r') :
    Evaluates s (.expr (.binary op.symbol x y)) m (binary op (fun _ => r) (fun _ => r') m) := by
  obtain ⟨least, hx⟩ := hx
  have hy : ∃ least', ∀ depth ≥ least', ∀ a m₁, r = .ok a m₁ → evalExpr depth s y m₁ = r' := by
    cases r with
    | ok a m₁ =>
      obtain ⟨least', hy⟩ := hy a m₁ rfl
      refine ⟨least', fun depth hdepth a' m₁' h => ?_⟩
      obtain ⟨rfl, rfl⟩ := EStateM.Result.ok.inj h
      exact hy depth hdepth
    | error e m₁ => exact ⟨0, fun _ _ _ _ h => nomatch h⟩
  obtain ⟨least', hy⟩ := hy
  refine evaluates_of_succ (max least least') fun depth hdepth => ?_
  obtain ⟨hdepth, hdepth'⟩ := Nat.max_le.1 hdepth
  have hleft : evalExpr depth s x m = r := hx depth hdepth
  have hop : Operator.ofSymbol? op.symbol = some op := Operator.ofSymbol?_eq_some_iff.2 rfl
  have happly : evalExpr (depth + 1) s (.binary op.symbol x y) m =
      binary op (evalExpr depth s x) (evalExpr depth s y) m := by
    simp only [evalExpr, hop]
  rw [happly]
  exact binary_congr hleft fun a m₁ ha => hy depth hdepth' a m₁ (hleft.symm.trans ha)

/-- The operator is applied to two values. -/
theorem evaluates_apply (op : Operator) (hx : Evaluates s (.expr x) m (.ok a m₁))
    (hy : Evaluates s (.expr y) m₁ (.ok b m₂)) :
    Evaluates s (.expr (.binary op.symbol x y)) m
      (binary op (fun _ => .ok a m₁) (fun _ => .ok b m₂) m) := by
  refine evaluates_binary op hx fun a' m₁' h => ?_
  obtain ⟨rfl, rfl⟩ := EStateM.Result.ok.inj h
  exact hy

end ObjectLang.Evaluation
