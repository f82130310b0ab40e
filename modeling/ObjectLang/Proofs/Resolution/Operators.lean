import ObjectLang.Prelude
import ObjectLang.Proofs.Resolution.Kinds
import ObjectLang.Proofs.Scoping.Steps

/-!
Steps on values of the kinds that types promise. None of them fails with a type error, and what
operators and native functions give is of the kind that the type of the result promises.
-/

namespace ObjectLang

/-- The function is in the outermost scope of all programs, with this signature. -/
def Native.Promises (g : Native) (sig : Signature) : Prop :=
  g ∈ Prelude.natives ∧ g.signature? = some sig

namespace Value

variable {p : Prim} {a b : Value}

/-- Two values of one kind that is ordered have an order. -/
theorem exists_order (hp : p ∈ [Prim.boolean, .integer, .decimal, .string]) (ha : p.Includes a)
    (hb : p.Includes b) :
    (∃ answer, a.less? b = some answer) ∧ ∃ answer, a.lessEq? b = some answer := by
  simp only [List.mem_cons, List.not_mem_nil, or_false] at hp
  rcases hp with rfl | rfl | rfl | rfl
  · obtain ⟨a, rfl⟩ := exists_boolean ha
    obtain ⟨b, rfl⟩ := exists_boolean hb
    exact ⟨⟨_, rfl⟩, _, rfl⟩
  · obtain ⟨a, rfl⟩ := exists_integer ha
    obtain ⟨b, rfl⟩ := exists_integer hb
    exact ⟨⟨_, rfl⟩, _, rfl⟩
  · obtain ⟨a, rfl⟩ := exists_decimal ha
    obtain ⟨b, rfl⟩ := exists_decimal hb
    exact ⟨⟨_, rfl⟩, _, rfl⟩
  · obtain ⟨a, rfl⟩ := exists_string ha
    obtain ⟨b, rfl⟩ := exists_string hb
    exact ⟨⟨_, rfl⟩, _, rfl⟩

/-- Two numbers of one kind have a result. -/
theorem exists_numbers (hp : p ∈ [Prim.integer, .decimal]) (ha : p.Includes a) (hb : p.Includes b) :
    (p = .integer ∧ ∃ m n, a = .integer m ∧ b = .integer n) ∨
      p = .decimal ∧ ∃ m n, a = .decimal m ∧ b = .decimal n := by
  simp only [List.mem_cons, List.not_mem_nil, or_false] at hp
  rcases hp with rfl | rfl
  · obtain ⟨m, rfl⟩ := exists_integer ha
    obtain ⟨n, rfl⟩ := exists_integer hb
    exact Or.inl ⟨rfl, m, n, rfl, rfl⟩
  · obtain ⟨m, rfl⟩ := exists_decimal ha
    obtain ⟨n, rfl⟩ := exists_decimal hb
    exact Or.inr ⟨rfl, m, n, rfl, rfl⟩

end Value

namespace Evaluation

open Typed

variable {Γ : TypeScopes} {E E' : Fault → Prop} {α : Type} {P Q : α → Prop} {x : EvalM α}

instance : Tolerates fun _ => True where
  typeError _ _ := trivial
  divideByZero _ _ := trivial
  tooDeep := trivial
  endless := trivial

theorem Quiet.mono (h : Quiet E P x) (hPQ : ∀ a, P a → Q a) : Quiet E Q x :=
  fun m => (h m).mono fun a _ _ ha => ⟨hPQ a ha.1, ha.2⟩

/-- Faults are ruled out by one look at a step, and what it gives may be known from another. -/
theorem Quiet.and (h : Quiet E P x) (h' : Quiet E' Q x) : Quiet E (fun a => P a ∧ Q a) x := by
  intro m
  refine ((h m).and (h' m)).mono fun a m' _ ha => ?_
  exact ⟨⟨ha.1.1, ha.2.1⟩, ha.1.2⟩

section Kinds

variable {v : Value}

theorem quiet_object (h : v.kind = .object) : Quiet E (fun _ => True) (requireObject v) := by
  obtain ⟨name, members, rfl⟩ := Value.exists_object h
  exact .pure trivial

theorem quiet_function (name : String) (h : v.kind = .function) :
    Quiet E (fun _ => True) (requireFunction name v) := by
  obtain ⟨f, rfl⟩ := Value.exists_function h
  exact .pure trivial

theorem quiet_condition (h : v.kind = .boolean) : Quiet E (fun _ => True) (requireCondition v) := by
  obtain ⟨b, rfl⟩ := Value.exists_boolean h
  exact .pure trivial

theorem quiet_operand (op : Operator) (h : v.kind = .boolean) :
    Quiet E (fun _ => True) (requireOperand op v) := by
  obtain ⟨b, rfl⟩ := Value.exists_boolean h
  exact .pure trivial

/-- Loops go over integers. -/
theorem quiet_iterable (h : Prim.iterable.Includes v) :
    Quiet E (fun items => ∀ item ∈ items, item.kind = .integer) (requireList v) := by
  obtain ⟨items, rfl, hitems⟩ := h
  exact .pure hitems

end Kinds

section Operators

variable {op : Operator} {l r t : Ty} {a b : Value}

theorem quiet_numbers {p : Prim} (integers : Int → Int → Int)
    (decimals : Decimal → Decimal → Decimal) (hp : p ∈ [Prim.integer, .decimal]) (ha : p.Includes a)
    (hb : p.Includes b) : Quiet E p.Includes (arithmetic op integers decimals a b) := by
  obtain ⟨rfl, m, n, rfl, rfl⟩ | ⟨rfl, m, n, rfl, rfl⟩ := Value.exists_numbers hp ha hb
  · exact .pure rfl
  · exact .pure rfl

theorem quiet_difference (integers : Int → Int → Int) (decimals : Decimal → Decimal → Decimal)
    (h : OperatorTyped Γ op l r t) (hop : op ∈ [Operator.sub, .mul, .div]) (ha : l.Includes a)
    (hb : r.Includes b) : Quiet E (fun v => t.Includes v) (arithmetic op integers decimals a b) := by
  obtain ⟨p, hp, rfl, rfl, rfl⟩ := h.arithmetic_inv hop
  exact quiet_numbers integers decimals hp ha hb

/-- Two values of one type are compared, which is not the tier of all comparable values. -/
theorem quiet_comparison {answer : Value → Value → Option Bool} (h : OperatorTyped Γ op l r t)
    (hop : op.Orders) (hl : l ≠ .prim .comparable) (ha : l.Includes a) (hb : r.Includes b)
    (hanswer : ∀ p ∈ [Prim.boolean, .integer, .decimal, .string], ∀ a b, p.Includes a →
      p.Includes b → ∃ b', answer a b = some b') :
    Quiet E (fun v => t.Includes v) (ordering op (answer a b) a b) := by
  obtain ⟨rfl, p, hp, rfl, rfl⟩ := h.ordering_inv_of_ne hop hl
  obtain ⟨b', hb'⟩ := hanswer p hp a b ha hb
  rw [hb']
  exact .pure rfl

variable [Mild E]

theorem quiet_sum (h : OperatorTyped Γ .add l r t) (ha : l.Includes a) (hb : r.Includes b) :
    Quiet E (fun v => t.Includes v) (plus a b) := by
  obtain ⟨rfl, hstring⟩ | ⟨p, hp, rfl, rfl, rfl⟩ := h.add_inv
  · unfold plus
    split
    · exact (quiet_display _).bind fun _ _ => .pure rfl
    · exact (quiet_display _).bind fun _ _ => .pure rfl
    · next hl hr =>
      rcases hstring with rfl | rfl
      · obtain ⟨s, rfl⟩ := Value.exists_string ha
        exact absurd rfl (hl s)
      · obtain ⟨s, rfl⟩ := Value.exists_string hb
        exact absurd rfl (hr s)
  · obtain ⟨rfl, m, n, rfl, rfl⟩ | ⟨rfl, m, n, rfl, rfl⟩ := Value.exists_numbers hp ha hb
    · exact .pure rfl
    · exact .pure rfl

theorem quiet_quotient (h : OperatorTyped Γ .div l r t) (ha : l.Includes a) (hb : r.Includes b) :
    Quiet E (fun v => t.Includes v) (divide a b) := by
  obtain ⟨p, hp, rfl, rfl, rfl⟩ := h.arithmetic_inv (by simp)
  obtain ⟨rfl, m, n, rfl, rfl⟩ | ⟨rfl, m, n, rfl, rfl⟩ := Value.exists_numbers hp ha hb
  all_goals
    unfold divide
    dsimp only
    split
    · exact .fail (Mild.divideByZero _ rfl)
    · exact .pure rfl

end Operators

section Natives

variable [Mild E] {g : Native} {sig : Signature} {args front vs : List Value}

/-- A native function that is called on arguments for its parameters gives a value for its result, if
nothing is wrong with the number of the arguments. -/
theorem quiet_promised (hg : g.Promises sig) (hE : LenientArity E) (hargs : args = front ++ vs)
    (hvs : List.Forall₂ Prim.Includes sig.params vs) :
    Quiet E (fun v => sig.returns.Includes v) (g.call args) := by
  obtain ⟨hmem, hsig⟩ := hg
  cases g with
  | debug =>
    cases hsig
    exact quiet_unary _ (Or.inr hE) fun _ _ _ => ⟨rfl, rfl⟩
  | print =>
    cases hsig
    exact quiet_unary _ (Or.inr hE) fun v _ => (quiet_display v).bind fun text _ =>
      (quiet_writeLine text).bind fun _ _ => .pure rfl
  | log =>
    cases hsig
    exact quiet_unary _ (Or.inr hE) fun v _ => (quiet_display v).bind fun _ _ =>
      (quiet_writeLine _).bind fun _ _ => .pure trivial
  | list => cases hsig
  | range =>
    cases hsig
    refine quiet_binaryNative _ (Or.inr hE) fun v w hvw => ?_
    obtain ⟨a, b, rfl, ha, hb⟩ : ∃ a b, vs = [a, b] ∧ a.kind = .integer ∧ b.kind = .integer := by
      cases hvs with
      | cons ha h => cases h with
        | cons hb h => cases h with
          | nil => exact ⟨_, _, rfl, ha, hb⟩
    obtain rfl : front = [] := by
      have := congrArg List.length (hargs.symm.trans hvw)
      simpa using this
    cases hargs.symm.trans hvw
    obtain ⟨m, rfl⟩ := Value.exists_integer ha
    obtain ⟨n, rfl⟩ := Value.exists_integer hb
    refine .pure ⟨_, rfl, fun item hitem => ?_⟩
    obtain ⟨k, -, rfl⟩ := List.mem_map.1 hitem
    rfl
  | function | functionAny | functionString | method | methodAny | methodString =>
    simp [Prelude.natives] at hmem

end Natives

end Evaluation

end ObjectLang
