import ObjectLang.Proofs.Decimal.Value
import ObjectLang.Values.Order

/-!
The order of values. `Less` says for each ordered kind what it is for a value to be less than another:
numbers go by what they stand for, and texts from left to right by the numbers of their characters.
Two values of one ordered kind of which neither is less than the other are the same, or are decimals
of one value.
-/

namespace ObjectLang

/-- The kinds of values that have an order. -/
def ValueKind.ordered : List ValueKind := [boolean, integer, decimal, string, character]

/-- The numbers of the characters of a text. -/
def codePoints (s : String) : List Nat := s.toList.map Char.toNat

/-- Texts are compared character by character, and a text comes after those that it begins with. -/
theorem string_lt_iff {s t : String} : s < t ↔ List.Lex (· < ·) (codePoints s) (codePoints t) := by
  rw [String.lt_iff, codePoints, codePoints]
  generalize s.toList = cs
  generalize t.toList = ds
  induction cs generalizing ds with
  | nil => cases ds <;> simp
  | cons c cs ih =>
    cases ds with
    | nil => simp
    | cons d ds =>
      rw [List.cons_lt_cons_iff, ih, List.map_cons, List.map_cons, List.cons_lex_cons_iff,
        Char.toNat_inj]
      rfl

namespace Decimal

theorem le_eq_not_lt (d e : Decimal) : d.le e = !e.lt d := by
  rw [Bool.eq_iff_iff, le_iff, Bool.not_eq_true', ← Bool.not_eq_true, lt_iff, not_lt]

end Decimal

namespace Value

/-- The value comes before the other one of its kind. -/
inductive Less : Value → Value → Prop where
  | boolean : Less (boolean false) (boolean true)
  | integer {i j : Int} : i < j → Less (integer i) (integer j)
  | decimal {d e : Decimal} : d.value < e.value → Less (decimal d) (decimal e)
  | string {s t : String} : List.Lex (· < ·) (codePoints s) (codePoints t) →
      Less (string s) (string t)
  | character {c d : Char} : c.toNat < d.toNat → Less (character c) (character d)

variable {a b c : Value}

theorem less?_eq_some_true_iff : a.less? b = some true ↔ Less a b := by
  constructor
  · intro h
    cases a <;> cases b <;> simp only [less?, Option.some.injEq, reduceCtorEq, decide_eq_true_eq,
      Bool.and_eq_true, Bool.not_eq_true'] at h
    · obtain ⟨rfl, rfl⟩ := h
      exact .boolean
    · exact .integer h
    · exact .decimal (Decimal.lt_iff.1 h)
    · exact .string (string_lt_iff.1 h)
    · exact .character h
  · intro h
    cases h with
    | boolean => rfl
    | integer h => simpa [less?] using h
    | decimal h => simpa [less?] using Decimal.lt_iff.2 h
    | string h => simpa [less?] using string_lt_iff.2 h
    | character h => exact congrArg some (decide_eq_true h)

/-- Two values of one kind, which has an order. -/
def Comparable (a b : Value) : Prop := a.kind = b.kind ∧ a.kind ∈ ValueKind.ordered

instance (a b : Value) : Decidable (Comparable a b) := inferInstanceAs (Decidable (_ ∧ _))

theorem Comparable.symm (h : Comparable a b) : Comparable b a := ⟨h.1.symm, h.1 ▸ h.2⟩

theorem less?_isSome_iff : (a.less? b).isSome ↔ Comparable a b := by
  cases a <;> cases b <;> simp [less?, Comparable, kind, ValueKind.ordered]

theorem less?_eq_some_false_iff : a.less? b = some false ↔ Comparable a b ∧ ¬Less a b := by
  rw [← less?_isSome_iff, ← less?_eq_some_true_iff]
  cases a.less? b with
  | none => simp
  | some answer => cases answer <;> simp

/-- To be at most `b` is to be no greater than it. -/
theorem lessEq?_eq (a b : Value) : a.lessEq? b = (b.less? a).map not := by
  cases a <;> cases b <;> try rfl
  case boolean.boolean a b => cases a <;> cases b <;> rfl
  case integer.integer i j => simp [lessEq?, less?, ← decide_not]
  case decimal.decimal d e => simp [lessEq?, less?, Decimal.le_eq_not_lt]
  case string.string s t =>
    simp only [lessEq?, less?, Option.map_some, ← String.not_lt, decide_not]
  case character.character c d =>
    simp only [lessEq?, less?, Option.map_some, ← Char.not_lt, decide_not]

theorem not_less_self (a : Value) : ¬Less a a := by
  intro h
  cases h with
  | integer h | decimal h | character h => exact lt_irrefl _ h
  | string h => exact List.lt_irrefl _ h

theorem Less.trans (h : Less a b) (h' : Less b c) : Less a c := by
  cases h with
  | boolean => cases h'
  | integer h => cases h' with | integer h' => exact .integer (h.trans h')
  | decimal h => cases h' with | decimal h' => exact .decimal (h.trans h')
  | string h => cases h' with | string h' => exact .string (List.lt_trans h h')
  | character h => cases h' with | character h' => exact .character (h.trans h')

/-- Neither of two values of one ordered kind is less than the other only where they are the same, or
are decimals with one value. -/
theorem tied_of_not_less (hcomparable : Comparable a b) (h : ¬Less a b) (h' : ¬Less b a) :
    a = b ∨ ∃ d e, a = decimal d ∧ b = decimal e ∧ d.value = e.value := by
  obtain ⟨hkind, hordered⟩ := hcomparable
  cases a <;> cases b <;> cases hkind
  case boolean.boolean a b =>
    cases a <;> cases b
    case false.true => exact absurd .boolean h
    case true.false => exact absurd .boolean h'
    all_goals exact .inl rfl
  case integer.integer i j =>
    exact .inl (congrArg integer (Int.le_antisymm (Int.not_lt.1 fun hj => h' (.integer hj))
      (Int.not_lt.1 fun hi => h (.integer hi))))
  case decimal.decimal d e =>
    exact .inr ⟨d, e, rfl, rfl, le_antisymm (not_lt.1 fun hd => h' (.decimal hd))
      (not_lt.1 fun he => h (.decimal he))⟩
  case string.string s t =>
    have hs : ¬s < t := fun hs => h (.string (string_lt_iff.1 hs))
    have ht : ¬t < s := fun ht => h' (.string (string_lt_iff.1 ht))
    exact .inl (congrArg string (String.le_antisymm (String.not_lt.1 ht) (String.not_lt.1 hs)))
  case character.character c d =>
    exact .inl (congrArg character (Char.le_antisymm (Char.not_lt.1 fun hd => h' (.character hd))
      (Char.not_lt.1 fun hc => h (.character hc))))
  all_goals simp [kind, ValueKind.ordered] at hordered

end Value

end ObjectLang
