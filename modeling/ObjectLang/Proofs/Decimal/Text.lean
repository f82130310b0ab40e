import Mathlib.Computability.RegularExpressions
import ObjectLang.Values.Display

/-!
What is written of a decimal can be read back. However it is written, plain or with a power of ten,
the text is made of the same parts: digits, a fraction, an exponent. Reading takes such a text apart
again, and of its parts nothing is lost.
-/

namespace ObjectLang

namespace Decimal

section Grammar

open RegularExpression

/-- `[0-9]` -/
def digit : RegularExpression Char := ("0123456789".toList.map char).sum

/-- `[0-9]+` -/
def number : RegularExpression Char := digit * digit.star

/-- `P?` -/
def optional (P : RegularExpression Char) : RegularExpression Char := 1 + P

/-- `-?digits(.digits)?(E[+-]?digits)?` -/
def grammar : RegularExpression Char :=
  optional (char '-') * (number * (optional (char '.' * number) *
    optional (char 'E' * (optional (char '+' + char '-') * number))))

variable {P : RegularExpression Char} {cs : List Char} {c : Char}

theorem mem_sum_char {cs : List Char} (h : c ∈ cs) : [c] ∈ (cs.map char).sum.matches' := by
  induction cs with
  | nil => cases h
  | cons d cs ih =>
    rw [List.map_cons, List.sum_cons, matches'_add, Language.mem_add]
    obtain rfl | h := List.mem_cons.1 h
    · exact .inl rfl
    · exact .inr (ih h)

theorem eq_digitChar (h : c.isDigit = true) : ∃ d < 10, c = Nat.digitChar d := by
  simp only [Char.isDigit, ge_iff_le, Bool.and_eq_true, decide_eq_true_eq, UInt32.le_iff_toNat_le] at h
  have hlow : 48 ≤ c.toNat := h.1
  have hhigh : c.toNat ≤ 57 := h.2
  refine ⟨c.toNat - 48, by omega, Char.toNat_inj.1 ?_⟩
  rw [Nat.toNat_digitChar_of_lt_ten (by omega)]
  omega

theorem mem_digit (h : c.isDigit = true) : [c] ∈ digit.matches' := by
  have hall : ∀ d < 10, Nat.digitChar d ∈ "0123456789".toList := by decide
  obtain ⟨d, hd, rfl⟩ := eq_digitChar h
  exact mem_sum_char (hall d hd)

theorem mem_number (hne : cs ≠ []) (h : ∀ c ∈ cs, c.isDigit = true) : cs ∈ number.matches' := by
  obtain ⟨c, cs, rfl⟩ := List.exists_cons_of_ne_nil hne
  obtain ⟨hc, hcs⟩ := List.forall_mem_cons.1 h
  refine Language.append_mem_mul (mem_digit hc) (Language.mem_kstar.2 ⟨cs.map fun c => [c], ?_, ?_⟩)
  · rw [← List.flatMap_def, List.flatMap_singleton']
  · intro t ht
    obtain ⟨d, hd, rfl⟩ := List.mem_map.1 ht
    exact mem_digit (hcs d hd)

theorem nil_mem_optional : [] ∈ (optional P).matches' := .inl rfl

theorem mem_optional (h : cs ∈ P.matches') : cs ∈ (optional P).matches' := .inr h

theorem cons_mem_char_mul (h : cs ∈ P.matches') : c :: cs ∈ (char c * P).matches' :=
  Language.append_mem_mul (show [c] ∈ (char c).matches' from rfl) h

end Grammar

/-- The parts of the text of a number: the digits before and behind the point, and the power of ten if
one is written. -/
structure Numeral where
  whole : List Char
  fraction : List Char
  exponent : Option Int
  whole_ne_nil : whole ≠ []
  isDigit_of_mem : ∀ c ∈ whole ++ fraction, c.isDigit = true

namespace Numeral

def fractionText : List Char → List Char
  | [] => []
  | d :: ds => '.' :: d :: ds

theorem fractionText_of_ne_nil {ds : List Char} (h : ds ≠ []) : fractionText ds = '.' :: ds := by
  cases ds with
  | nil => exact absurd rfl h
  | cons d ds => rfl

def exponentText : Option Int → List Char
  | none => []
  | some e => 'E' :: writeExponent e

/-- The parts, one after the other. -/
def text (n : Numeral) : List Char :=
  n.whole ++ (fractionText n.fraction ++ exponentText n.exponent)

def coefficient (n : Numeral) : Nat := ofDigits (n.whole ++ n.fraction)

/-- The exponent of the last digit. -/
def scale (n : Numeral) : Int := n.exponent.getD 0 - n.fraction.length

end Numeral

section Write

theorem isDigit_of_mem_digits {n : Nat} {c : Char} (h : c ∈ digits n) : c.isDigit = true :=
  Nat.isDigit_of_mem_toDigits (by decide) (by decide) h

theorem digits_ne_nil (n : Nat) : digits n ≠ [] := Nat.toDigits_ne_nil

theorem ofDigits_digits (n : Nat) : ofDigits (digits n) = n :=
  Nat.ofDigitChars_toDigits (by decide) (by decide)

/-- Zeros in front make no difference. -/
theorem ofDigits_replicate_append (k : Nat) (ds : List Char) :
    ofDigits (List.replicate k '0' ++ ds) = ofDigits ds := by
  induction k with
  | zero => rfl
  | succ k ih => exact ih

variable {ds : List Char}

theorem exists_numeral_plain (places : Nat) (hds : ∀ c ∈ ds, c.isDigit = true) : ∃ n : Numeral,
    n.text = writePlain places ds ∧ n.coefficient = ofDigits ds ∧ n.scale = -places := by
  let padded := List.replicate (places + 1 - ds.length) '0' ++ ds
  have hlength : places < padded.length := by
    rw [List.length_append, List.length_replicate]
    omega
  have hdigit : ∀ c ∈ padded, c.isDigit = true := by
    intro c hc
    obtain hc | hc := List.mem_append.1 hc
    · obtain rfl := List.eq_of_mem_replicate hc
      rfl
    · exact hds c hc
  let whole := padded.length - places
  have hparts : padded.take whole ++ padded.drop whole = padded := List.take_append_drop ..
  have hfraction : (padded.drop whole).length = places := by
    rw [List.length_drop]
    omega
  refine ⟨⟨padded.take whole, padded.drop whole, none, ?_, by rwa [hparts]⟩, ?_, ?_, ?_⟩
  · rw [Ne, ← List.length_eq_zero_iff, List.length_take]
    omega
  · show padded.take whole ++ (Numeral.fractionText (padded.drop whole) ++ []) = _
    rw [List.append_nil, writePlain]
    split
    · next hplaces =>
      rw [List.eq_nil_of_length_eq_zero (hfraction.trans hplaces)] at hparts ⊢
      exact hparts
    · next hplaces =>
      have hne : padded.drop whole ≠ [] := by
        rw [Ne, ← List.length_eq_zero_iff, hfraction]
        exact hplaces
      rw [Numeral.fractionText_of_ne_nil hne]
  · show ofDigits _ = _
    rw [hparts, ofDigits_replicate_append]
  · show (0 : Int) - _ = _
    rw [hfraction, Int.zero_sub]

theorem exists_numeral_scientific (adjusted : Int) (hne : ds ≠ [])
    (hds : ∀ c ∈ ds, c.isDigit = true) : ∃ n : Numeral,
    n.text = writeScientific adjusted ds ∧ n.coefficient = ofDigits ds ∧
      n.scale = adjusted - (ds.length - 1 : Nat) := by
  obtain ⟨d, rest, rfl⟩ := List.exists_cons_of_ne_nil hne
  refine ⟨⟨[d], rest, some adjusted, List.cons_ne_nil d [], hds⟩, ?_, rfl, rfl⟩
  cases rest with
  | nil => rfl
  | cons e rest => simp [Numeral.text, Numeral.fractionText, Numeral.exponentText, writeScientific]

/-- Everything that is written without a sign is the text of a numeral. -/
theorem exists_numeral (coefficient : Nat) (exponent : Int) : ∃ n : Numeral,
    n.text = writeUnsigned coefficient exponent ∧ n.coefficient = coefficient ∧ n.scale = exponent := by
  have hdigit : ∀ c ∈ digits coefficient, c.isDigit = true := fun _ => isDigit_of_mem_digits
  have hlength : 0 < (digits coefficient).length :=
    List.length_pos_iff.2 (digits_ne_nil coefficient)
  rw [writeUnsigned]
  split
  · next hplain =>
    obtain ⟨n, htext, hcoefficient, hscale⟩ := exists_numeral_plain exponent.natAbs hdigit
    have hexponent : exponent ≤ 0 := by
      simp only [isPlain, Bool.and_eq_true, decide_eq_true_eq] at hplain
      exact hplain.1
    exact ⟨n, htext, hcoefficient.trans (ofDigits_digits _), by omega⟩
  · obtain ⟨n, htext, hcoefficient, hscale⟩ :=
      exists_numeral_scientific (exponent + (digits coefficient).length - 1) (digits_ne_nil coefficient)
        hdigit
    exact ⟨n, htext, hcoefficient.trans (ofDigits_digits _), by omega⟩

/-- The characters that numbers are written with. -/
def IsMark (c : Char) : Prop := c.isDigit = true ∨ c ∈ ['.', 'E', '+', '-']

theorem isMark_of_mem_text {n : Numeral} {c : Char} (h : c ∈ n.text) : IsMark c := by
  obtain ⟨hwhole, hfraction⟩ := List.forall_mem_append.1 n.isDigit_of_mem
  rw [Numeral.text, List.mem_append, List.mem_append] at h
  obtain h | h | h := h
  · exact .inl (hwhole c h)
  · cases hn : n.fraction with
    | nil =>
      rw [hn] at h
      cases h
    | cons d ds =>
      rw [hn] at h hfraction
      obtain rfl | h := List.mem_cons.1 h
      · exact .inr (by decide)
      · exact .inl (hfraction c h)
  · cases hn : n.exponent with
    | none =>
      rw [hn] at h
      cases h
    | some e =>
      rw [hn, Numeral.exponentText, writeExponent, List.mem_cons, List.mem_cons] at h
      obtain rfl | rfl | h := h
      · exact .inr (by decide)
      · split <;> exact .inr (by decide)
      · exact .inl (isDigit_of_mem_digits h)

theorem isMark_of_mem_write {d : Decimal} {c : Char} (h : c ∈ d.write) : IsMark c := by
  obtain ⟨n, htext, -⟩ := exists_numeral d.coefficient d.exponent
  rw [write, ← htext] at h
  split at h
  · obtain rfl | h := List.mem_cons.1 h
    · exact .inr (by decide)
    · exact isMark_of_mem_text h
  · exact isMark_of_mem_text h

end Write

section Grammar

open Numeral

theorem fractionText_mem {ds : List Char} (h : ∀ c ∈ ds, c.isDigit = true) :
    fractionText ds ∈ (optional (.char '.' * number)).matches' := by
  cases ds with
  | nil => exact nil_mem_optional
  | cons d ds => exact mem_optional (cons_mem_char_mul (mem_number (List.cons_ne_nil d ds) h))

theorem exponentText_mem (exponent : Option Int) : exponentText exponent ∈
    (optional (.char 'E' * (optional (.char '+' + .char '-') * number))).matches' := by
  cases exponent with
  | none => exact nil_mem_optional
  | some e =>
    have hsign : [if e < 0 then '-' else '+'] ∈ (optional (.char '+' + .char '-')).matches' := by
      split
      · exact mem_optional (.inr rfl)
      · exact mem_optional (.inl rfl)
    have hdigits := mem_number (digits_ne_nil e.natAbs) fun _ => isDigit_of_mem_digits
    exact mem_optional (cons_mem_char_mul (Language.append_mem_mul hsign hdigits))

/-- What is written has the form that can be read. -/
theorem write_mem_grammar (d : Decimal) : d.write ∈ grammar.matches' := by
  obtain ⟨n, htext, -⟩ := exists_numeral d.coefficient d.exponent
  obtain ⟨hwhole, hfraction⟩ := List.forall_mem_append.1 n.isDigit_of_mem
  have hsign : (if d.negative then ['-'] else []) ∈ (optional (.char '-')).matches' := by
    split
    · exact mem_optional rfl
    · exact nil_mem_optional
  have hwrite : d.write = (if d.negative then ['-'] else []) ++ n.text := by
    rw [write, ← htext]
    split <;> rfl
  rw [hwrite]
  exact Language.append_mem_mul hsign (Language.append_mem_mul (mem_number n.whole_ne_nil hwhole)
    (Language.append_mem_mul (fractionText_mem hfraction) (exponentText_mem n.exponent)))

end Grammar

section Read

variable {ds rest : List Char}

/-- A run of digits ends at the first character that is no digit. -/
theorem readDigits?_append (hne : ds ≠ []) (hds : ∀ c ∈ ds, c.isDigit = true)
    (hrest : ∀ c ∈ rest.head?, c.isDigit = false) : readDigits? (ds ++ rest) = some (ds, rest) := by
  have hstop : rest.takeWhile Char.isDigit = [] ∧ rest.dropWhile Char.isDigit = rest := by
    cases rest with
    | nil => exact ⟨rfl, rfl⟩
    | cons c rest =>
      have hc : ¬c.isDigit = true := by simp [hrest c rfl]
      exact ⟨List.takeWhile_cons_of_neg hc, List.dropWhile_cons_of_neg hc⟩
  rw [readDigits?, List.takeWhile_append_of_pos hds, List.dropWhile_append_of_pos hds, hstop.1,
    hstop.2, List.append_nil, if_neg (by simpa using hne)]

theorem readMagnitude?_digits (n : Nat) : readMagnitude? (digits n) = some n := by
  have hread : readDigits? (digits n ++ []) = some (digits n, []) :=
    readDigits?_append (digits_ne_nil n) (fun _ => isDigit_of_mem_digits) nofun
  rw [List.append_nil] at hread
  rw [readMagnitude?, hread]
  exact congrArg some (ofDigits_digits n)

theorem readExponent?_text (exponent : Option Int) :
    readExponent? (Numeral.exponentText exponent) = some (exponent.getD 0) := by
  cases exponent with
  | none => rfl
  | some e =>
    rw [Numeral.exponentText, writeExponent]
    split
    · rw [readExponent?, readMagnitude?_digits]
      exact congrArg some (show -(e.natAbs : Int) = e by omega)
    · rw [readExponent?, readMagnitude?_digits]
      exact congrArg some (show (e.natAbs : Int) = e by omega)

theorem head_exponentText {exponent : Option Int} {c : Char}
    (h : c ∈ (Numeral.exponentText exponent).head?) : c = 'E' := by
  cases exponent with
  | none => cases h
  | some e => exact (Option.some.inj h).symm

theorem readFraction?_text {fraction : List Char} (exponent : Option Int)
    (h : ∀ c ∈ fraction, c.isDigit = true) :
    readFraction? (Numeral.fractionText fraction ++ Numeral.exponentText exponent) =
      some (fraction, Numeral.exponentText exponent) := by
  cases fraction with
  | nil => cases exponent <;> rfl
  | cons d ds =>
    refine readDigits?_append (List.cons_ne_nil d ds) h fun c hc => ?_
    rw [head_exponentText hc]
    rfl

theorem readUnsigned?_text (negative : Bool) (n : Numeral) :
    readUnsigned? negative n.text = some ⟨negative, n.coefficient, n.scale⟩ := by
  obtain ⟨hwhole, hfraction⟩ := List.forall_mem_append.1 n.isDigit_of_mem
  have hrest : ∀ c ∈ (Numeral.fractionText n.fraction ++ Numeral.exponentText n.exponent).head?,
      c.isDigit = false := by
    intro c hc
    cases hn : n.fraction with
    | nil =>
      rw [hn] at hc
      rw [head_exponentText hc]
      rfl
    | cons d ds =>
      rw [hn] at hc
      obtain rfl := Option.some.inj hc
      rfl
  simp only [readUnsigned?, Numeral.text, readDigits?_append n.whole_ne_nil hwhole hrest,
    Option.bind_eq_bind, Option.bind_some, readFraction?_text n.exponent hfraction, readExponent?_text]
  rfl

/-- The text of a numeral begins with a digit and so has no sign. -/
theorem read?_text (n : Numeral) : read? n.text = some ⟨false, n.coefficient, n.scale⟩ := by
  have hread := readUnsigned?_text false n
  obtain ⟨c, whole, hwhole⟩ := List.exists_cons_of_ne_nil n.whole_ne_nil
  have hc : c ≠ '-' := by
    rintro rfl
    have hdigit := n.isDigit_of_mem '-' (by simp [hwhole])
    cases hdigit
  have htext : n.text =
      c :: (whole ++ (Numeral.fractionText n.fraction ++ Numeral.exponentText n.exponent)) := by
    rw [Numeral.text, hwhole]
    rfl
  rw [htext] at hread ⊢
  rw [read?]
  · exact hread
  · rintro _ ⟨⟩
    exact hc rfl

/-- Reading what is written gives the number back. -/
theorem read?_write (d : Decimal) : read? d.write = some d := by
  obtain ⟨n, htext, hcoefficient, hscale⟩ := exists_numeral d.coefficient d.exponent
  obtain ⟨negative, coefficient, exponent⟩ := d
  dsimp only at htext hcoefficient hscale
  rw [write, ← htext]
  cases negative with
  | false =>
    show read? n.text = _
    rw [read?_text, hcoefficient, hscale]
  | true =>
    show readUnsigned? true n.text = _
    rw [readUnsigned?_text, hcoefficient, hscale]

theorem write_injective : Function.Injective write := by
  intro d e h
  have hread := congrArg read? h
  rw [read?_write, read?_write] at hread
  exact Option.some.inj hread

end Read

end Decimal

/-- Every decimal has a text, which has the form that decimals are read in, and from which the same
sign, coefficient and exponent are read again: `1.50` is not `1.5`, and each zero keeps its sign and
exponent. -/
theorem Value.decimal_text_round_trip (Γ : ValueScopes) (d : Decimal) : ∃ text,
    (Value.decimal d).display? Γ = some text ∧ text.toList ∈ Decimal.grammar.matches' ∧
      Decimal.ofText? text = some d := by
  have hlist : d.toText.toList = d.write := String.toList_ofList
  refine ⟨d.toText, rfl, ?_, ?_⟩
  · rw [hlist]
    exact d.write_mem_grammar
  · rw [Decimal.ofText?, hlist]
    exact d.read?_write

end ObjectLang
