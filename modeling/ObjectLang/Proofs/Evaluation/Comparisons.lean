import ObjectLang.Proofs.Evaluation.Results
import ObjectLang.Proofs.Resolution.Kinds
import ObjectLang.Proofs.Values.Equality
import ObjectLang.Proofs.Values.Order

/-!
Comparisons in programs. Equality is an equivalence on all values without cycles, whatever their
kinds, and the ordering operators make a total order of each ordered kind.
-/

namespace ObjectLang.Evaluation

open Value (Equals Less)

variable {s : ScopeId} {m m₁ m₂ : Machine} {op : Operator} {x y : Expr} {a b c : Value}
  {answer : Bool}

/-- Between two values, the operator gives a truth value and changes nothing. -/
def Says (m : Machine) (op : Operator) (a b : Value) (answer : Bool) : Prop :=
  binary op (pure a) (pure b) m = .ok (.boolean answer) m

/-- An operator that asks for both operands has nothing to go by but their values, and the state in
which they have been found. -/
theorem evaluates_strict (hop : op ∉ [Operator.and, .or]) (hx : Evaluates s (.expr x) m (.ok a m₁))
    (hy : Evaluates s (.expr y) m₁ (.ok b m₂)) :
    Evaluates s (.expr (.binary op.symbol x y)) m (binary op (pure a) (pure b) m₂) := by
  have happly : binary op (fun _ => .ok a m₁) (fun _ => .ok b m₂) m =
      binary op (pure a) (pure b) m₂ := by
    cases op with
    | and | or => simp at hop
    | _ => rfl
  rw [← happly]
  exact evaluates_apply op hx hy

section Equality

theorem says_eq_iff : Says m .eq a b answer ↔ a.equal? m.scopes b = some answer := by
  have hbinary : binary .eq (pure a) (pure b) m =
    (do return .boolean (← equal a b) : EvalM Value) m := rfl
  rw [Says, hbinary, bind_apply, equal_apply]
  cases a.equal? m.scopes b <;> simp [pure_apply]

/-- On values without cycles, `==` always has an answer, in a program as between the values
themselves, and is reflexive, symmetric and transitive. Values of different kinds are never equal. Two
lists are equal when they have the same length and equal items at the same places, and two objects
when they have the same name, the same names of members in any order, and equal members of each
name. Nothing else has an inside, and is only equal to itself, but for functions, which go by their
names, and for decimals with one value at one scale. -/
theorem equality_equivalence (m : Machine) :
    (∀ a b : Value, a.Acyclic m.scopes → b.Acyclic m.scopes → ∃ answer, Says m .eq a b answer ∧
      ∀ s x y m₀ m₁, Evaluates s (.expr x) m₀ (.ok a m₁) → Evaluates s (.expr y) m₁ (.ok b m) →
        Evaluates s (.expr (.binary "==" x y)) m₀ (.ok (.boolean answer) m)) ∧
    (∀ a : Value, a.Acyclic m.scopes → Says m .eq a a true) ∧
    (∀ a b : Value, a.Acyclic m.scopes → b.Acyclic m.scopes →
      Says m .eq a b true → Says m .eq b a true) ∧
    (∀ a b c : Value, a.Acyclic m.scopes → b.Acyclic m.scopes → c.Acyclic m.scopes →
      Says m .eq a b true → Says m .eq b c true → Says m .eq a c true) ∧
    (∀ a b : Value, a.kind ≠ b.kind → Says m .eq a b false) ∧
    (∀ as bs : List Value, Says m .eq (.list as) (.list bs) true ↔ as.length = bs.length ∧
      ∀ i (ha : i < as.length) (hb : i < bs.length), Says m .eq as[i] bs[i] true) ∧
    (∀ (n k : Option String) (as bs : ScopeId), Says m .eq (.object n as) (.object k bs) true ↔
      n = k ∧ (∀ name, name ∈ m.scopes.names as ↔ name ∈ m.scopes.names bs) ∧
      ∀ name a b, m.scopes.lookupOwn as name = some a → m.scopes.lookupOwn bs name = some b →
        Says m .eq a b true) ∧
    (∀ a b : Value, a.Plain → (Says m .eq a b true ↔ Value.Alike a b)) := by
  refine ⟨fun a b ha _ => ?_, fun a _ => ?_, fun a b ha _ hab => ?_, fun a b c ha _ _ hab hbc => ?_,
    fun a b hkind => ?_, fun as bs => ?_, fun n k as bs => ?_, fun a b ha => ?_⟩
  · obtain ⟨answer, hanswer⟩ :=
      Option.isSome_iff_exists.1 (Value.equal_isSome (Value.acc_of_acyclic ha) b)
    have hsays : Says m .eq a b answer := says_eq_iff.2 hanswer
    refine ⟨answer, hsays, fun s x y m₀ m₁ hx hy => ?_⟩
    rw [← hsays]
    have hstrict : Operator.eq ∉ [Operator.and, .or] := by decide
    exact evaluates_strict hstrict hx hy
  · exact says_eq_iff.2 (Value.equals_refl m.scopes a)
  · exact says_eq_iff.2 (Equals.symm (Value.acc_of_acyclic ha) (says_eq_iff.1 hab))
  · exact says_eq_iff.2
      (Equals.trans (Value.acc_of_acyclic ha) (says_eq_iff.1 hab) (says_eq_iff.1 hbc))
  · exact says_eq_iff.2 (Value.equal?_of_kind_ne hkind)
  · simp only [says_eq_iff]
    exact Value.equals_list_iff
  · simp only [says_eq_iff]
    refine Value.equals_object_iff.trans (and_congr_right fun _ => ?_)
    exact ⟨fun h => ⟨h.names, h.values⟩, fun h => ⟨h.1, h.2⟩⟩
  · rw [says_eq_iff]
    exact Value.equals_plain_iff ha

/-- Three objects. The second has the members of the first in the other order, and the third has one
of them at another scale. -/
def purses : Machine :=
  let coins (scale : Nat) : String × Value := ("coins", .decimal ⟨false, 10 ^ scale, -scale⟩)
  let add : String × Value := ("add", .function (.named "add"))
  ⟨(((∅ : ValueScopes).addRoot (.ofList [coins 1, add])).addRoot (.ofList [add, coins 1])).addRoot
    (.ofList [coins 2, add]), #[], #[]⟩

/-- The order of the members makes no difference, and the scale of a decimal does. -/
theorem equality_equivalence_purses :
    Value.Acyclic purses.scopes (.object none 0) ∧ Value.Acyclic purses.scopes (.object none 1) ∧
      Says purses .eq (.object none 0) (.object none 1) true ∧
      Says purses .eq (.object none 1) (.object none 0) true ∧
      ¬Says purses .eq (.object none 0) (.object none 2) true := by
  obtain ⟨-, -, hsymm, -⟩ := equality_equivalence purses
  have hacyclic (members : ScopeId) (h : ∀ e ∈ (purses.scopes.own members).entries, e.2.Plain) :
      Value.Acyclic purses.scopes (.object none members) := by
    refine Value.acyclic_of_acc ⟨_, fun w ⟨name, hw⟩ => Value.acc_of_plain ?_⟩
    exact h (name, w) (Bindings.find?_eq_some_iff.1 hw)
  have hzero := hacyclic 0 (by decide)
  have hone := hacyclic 1 (by decide)
  have hequal : Says purses .eq (.object none 0) (.object none 1) true := says_eq_iff.2 (by decide)
  refine ⟨hzero, hone, hequal, hsymm _ _ hzero hone hequal, fun hscale => ?_⟩
  exact absurd (says_eq_iff.1 hscale) (by decide)

end Equality

section Order

theorem ordering_eq_ok_iff {found : Option Bool} :
    ordering op found a b m = .ok (.boolean answer) m ↔ found = some answer := by
  cases found with
  | none => exact ⟨nofun, nofun⟩
  | some found => simp [ordering, pure_apply]

theorem says_lt_iff : Says m .lt a b answer ↔ a.less? b = some answer := ordering_eq_ok_iff

theorem says_gt_iff : Says m .gt a b answer ↔ b.less? a = some answer := ordering_eq_ok_iff

theorem says_le_iff : Says m .le a b answer ↔ b.less? a = some !answer := by
  have hle : Says m .le a b answer ↔ a.lessEq? b = some answer := ordering_eq_ok_iff
  rw [hle, Value.lessEq?_eq]
  cases b.less? a <;> simp [Bool.not_eq_eq_eq_not]

theorem says_ge_iff : Says m .ge a b answer ↔ a.less? b = some !answer := by
  have hge : Says m .ge a b answer ↔ b.lessEq? a = some answer := ordering_eq_ok_iff
  rw [hge, Value.lessEq?_eq]
  cases a.less? b <;> simp [Bool.not_eq_eq_eq_not]

theorem strict_of_orders (hop : op.Orders) : op ∉ [Operator.and, .or] := by
  cases op <;> simp_all [Operator.Orders]

/-- Every ordering operator has an answer exactly where the two values are comparable. -/
theorem binary_ordering (hop : op.Orders) : ∃ found : Option Bool,
    (found.isSome ↔ a.Comparable b) ∧ binary op (pure a) (pure b) m = ordering op found a b m := by
  have hless : (a.less? b).isSome ↔ a.Comparable b := Value.less?_isSome_iff
  have hgreater : (b.less? a).isSome ↔ a.Comparable b :=
    Value.less?_isSome_iff.trans ⟨Value.Comparable.symm, Value.Comparable.symm⟩
  cases op with
  | lt => exact ⟨a.less? b, hless, rfl⟩
  | le => exact ⟨a.lessEq? b, by simpa [Value.lessEq?_eq] using hgreater, rfl⟩
  | gt => exact ⟨b.less? a, hgreater, rfl⟩
  | ge => exact ⟨b.lessEq? a, by simpa [Value.lessEq?_eq] using hless, rfl⟩
  | _ => simp [Operator.Orders] at hop

theorem plain_of_ordered (h : a.kind ∈ ValueKind.ordered) : a.Plain := by
  cases a <;> simp_all [Value.kind, ValueKind.ordered, Value.Plain]

theorem not_less_of_alike (h : Value.Alike a b) : ¬Less a b := by
  intro hless
  cases h with
  | same => exact Value.not_less_self a hless
  | decimal _ hvalue =>
    cases hless with
    | decimal hlt => exact hlt.ne hvalue
  | function => cases hless

/-- The ordering operators make a total order of each ordered kind. They have an answer between two
values of one ordered kind, and fail with a type error between any others, in programs as between the
values themselves. `<` is irreflexive and transitive, and the other three say what `<` says, with the
values exchanged or with the answer turned round. Equal values are at most each other; the other way
round this holds of all kinds but decimals, which are then equal in value. Texts are ordered from left
to right by the numbers of their characters, and all kinds as `Less` says. -/
theorem orderings_total (m : Machine) (a b c : Value) :
    (∀ op : Operator, op.Orders → ∀ s x y m₀ m₁, Evaluates s (.expr x) m₀ (.ok a m₁) →
      Evaluates s (.expr y) m₁ (.ok b m) →
      Evaluates s (.expr (.binary op.symbol x y)) m₀ (binary op (pure a) (pure b) m)) ∧
    (∀ op : Operator, op.Orders → if a.Comparable b then
      ∃ answer, Says m op a b answer
      else ∃ e : EvalError, e.kind = .typeError ∧ binary op (pure a) (pure b) m = .error (.error e) m) ∧
    (a.kind ∈ ValueKind.ordered → Says m .lt a a false) ∧
    (Says m .lt a b true → Says m .lt b c true → Says m .lt a c true) ∧
    (∀ answer, Says m .gt a b answer ↔ Says m .lt b a answer) ∧
    (∀ answer, Says m .le a b answer ↔ Says m .lt b a !answer) ∧
    (∀ answer, Says m .ge a b answer ↔ Says m .le b a answer) ∧
    (a.kind ∈ ValueKind.ordered → Says m .eq a b true → Says m .le a b true ∧ Says m .le b a true) ∧
    (Says m .le a b true → Says m .le b a true → (a.kind ≠ .decimal → Says m .eq a b true) ∧
      ∀ d e, a = .decimal d → b = .decimal e → d.value = e.value) ∧
    (∀ u v : String, Says m .lt (.string u) (.string v) true ↔
      List.Lex (· < ·) (codePoints u) (codePoints v)) ∧
    (Says m .lt a b true ↔ Less a b) := by
  refine ⟨fun op hop s x y m₀ m₁ hx hy => ?_, fun op hop => ?_, fun ha => ?_, fun hab hbc => ?_,
    fun answer => ?_, fun answer => ?_, fun answer => ?_, fun ha hab => ?_, fun hab hba => ?_,
    fun u v => ?_, ?_⟩
  · exact evaluates_strict (strict_of_orders hop) hx hy
  · obtain ⟨found, hfound, hbinary⟩ := binary_ordering (m := m) (a := a) (b := b) hop
    split
    · next hcomparable =>
      obtain ⟨answer, hanswer⟩ := Option.isSome_iff_exists.1 (hfound.2 hcomparable)
      exact ⟨answer, hbinary.trans (ordering_eq_ok_iff.2 hanswer)⟩
    · next hcomparable =>
      rw [← hfound, Option.not_isSome_iff_eq_none] at hcomparable
      exact ⟨_, rfl, by rw [hbinary, hcomparable]; rfl⟩
  · exact says_lt_iff.2 (Value.less?_eq_some_false_iff.2 ⟨⟨rfl, ha⟩, Value.not_less_self a⟩)
  · rw [says_lt_iff, Value.less?_eq_some_true_iff] at hab hbc ⊢
    exact hab.trans hbc
  · rw [says_gt_iff, says_lt_iff]
  · rw [says_le_iff, says_lt_iff]
  · rw [says_ge_iff, says_le_iff]
  · have hkind : a.kind = b.kind := Equals.kind_eq (says_eq_iff.1 hab)
    have halike := (Value.equals_plain_iff (plain_of_ordered ha)).1 (says_eq_iff.1 hab)
    rw [says_le_iff, says_le_iff]
    exact ⟨Value.less?_eq_some_false_iff.2 ⟨⟨hkind.symm, hkind ▸ ha⟩, not_less_of_alike halike.symm⟩,
      Value.less?_eq_some_false_iff.2 ⟨⟨hkind, ha⟩, not_less_of_alike halike⟩⟩
  · rw [says_le_iff] at hab hba
    obtain ⟨hcomparable, hnot⟩ := Value.less?_eq_some_false_iff.1 hba
    obtain ⟨-, hnot'⟩ := Value.less?_eq_some_false_iff.1 hab
    constructor
    · intro hkind
      rcases Value.tied_of_not_less hcomparable hnot hnot' with rfl | ⟨d, e, rfl, rfl, -⟩
      · exact says_eq_iff.2 (Value.equals_refl m.scopes a)
      · exact absurd rfl hkind
    · rintro d e rfl rfl
      exact le_antisymm (not_lt.1 fun hed => hnot' (.decimal hed))
        (not_lt.1 fun hde => hnot (.decimal hde))
  · rw [says_lt_iff, Value.less?_eq_some_true_iff]
    exact ⟨fun | .string h => h, .string⟩
  · rw [says_lt_iff, Value.less?_eq_some_true_iff]

/-- Two decimals can be at most each other without being equal, a text with a character beyond U+FFFF
comes after one with U+FFFF itself, and TRUE is not compared with 1. -/
theorem orderings_total_edges :
    let m : Machine := ⟨∅, #[], #[]⟩
    let coarse : Value := .decimal ⟨false, 10, -1⟩
    let fine : Value := .decimal ⟨false, 100, -2⟩
    (Says m .le coarse fine true ∧ Says m .le fine coarse true ∧ ¬Says m .eq coarse fine true ∧
      Decimal.value ⟨false, 10, -1⟩ = Decimal.value ⟨false, 100, -2⟩) ∧
    Says m .lt (.string "\uffff") (.string "😀") true ∧
    ∃ e : EvalError, e.kind = .typeError ∧
      binary .lt (pure (.boolean true)) (pure (.integer 1)) m = .error (.error e) m := by
  intro m coarse fine
  obtain ⟨-, -, -, -, -, -, -, -, htied, htexts, -⟩ := orderings_total m coarse fine fine
  obtain ⟨-, herror, -⟩ := orderings_total m (.boolean true) (.integer 1) .nil
  have hle : Says m .le coarse fine true := says_le_iff.2 (by decide)
  have hge : Says m .le fine coarse true := says_le_iff.2 (by decide)
  refine ⟨⟨hle, hge, fun heq => absurd (says_eq_iff.1 heq) (by decide), ?_⟩, ?_, ?_⟩
  · exact (htied hle hge).2 _ _ rfl rfl
  · exact (htexts _ _).2 (by decide)
  · exact herror .lt (by simp [Operator.Orders])

end Order

end ObjectLang.Evaluation
