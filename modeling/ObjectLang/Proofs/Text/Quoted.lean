import Mathlib.Algebra.Group.Nat.Defs
import ObjectLang.Text.Quoted

/-!
Where a quoted text ends. Every character is written so that it can be read off the front of what
follows it, and no character is written with the closing quote in front. So a text and what stands
behind it can be told from its quoted form.
-/

namespace ObjectLang.Text

section Hex

/-- The value of a lower-case hexadecimal digit. -/
def hexValue (c : Char) : Nat := if c.isDigit then c.toNat - '0'.toNat else c.toNat - 'a'.toNat + 10

/-- The number that a list of hexadecimal digits stands for. -/
def ofHexDigits (cs : List Char) : Nat := cs.foldl (fun n c => n * 16 + hexValue c) 0

theorem hexValue_hexDigit : ∀ n < 16, hexValue (hexDigit n) = n := by decide

theorem length_hexDigits (width n : Nat) : (hexDigits width n).length = width := by
  induction width generalizing n with
  | zero => rfl
  | succ width ih => rw [hexDigits, List.length_append, ih, List.length_singleton]

theorem ofHexDigits_hexDigits (width n : Nat) : ofHexDigits (hexDigits width n) = n % 16 ^ width := by
  induction width generalizing n with
  | zero => rw [Nat.pow_zero, Nat.mod_one, hexDigits, ofHexDigits, List.foldl_nil]
  | succ width ih =>
    have hfront := ih (n / 16)
    rw [ofHexDigits] at hfront
    rw [hexDigits, ofHexDigits, List.foldl_append, hfront, List.foldl_cons, List.foldl_nil,
      hexValue_hexDigit _ (Nat.mod_lt n (by decide)), Nat.pow_succ', Nat.mod_mul]
    omega

end Hex

variable {q c d : Char} {cs ds rest rest' : List Char}

/-- Reads a numeric escape of some width. -/
def readHex (width : Nat) (cs : List Char) : Char × List Char :=
  (Char.ofNat (ofHexDigits (cs.take width)), cs.drop width)

/-- Reads one character, as it is written between quotes, off the front of a text. -/
def readChar? : List Char → Option (Char × List Char)
  | '\\' :: 't' :: rest => some ('\t', rest)
  | '\\' :: 'n' :: rest => some ('\n', rest)
  | '\\' :: 'r' :: rest => some ('\r', rest)
  | '\\' :: 'x' :: rest => some (readHex 2 rest)
  | '\\' :: 'u' :: rest => some (readHex 4 rest)
  | '\\' :: 'U' :: rest => some (readHex 8 rest)
  | '\\' :: c :: rest => some (c, rest)
  | c :: rest => some (c, rest)
  | [] => none

theorem readHex_append {width : Nat} (h : c.toNat < 16 ^ width) (rest : List Char) :
    readHex width (hexDigits width c.toNat ++ rest) = (c, rest) := by
  have hlength := length_hexDigits width c.toNat
  rw [readHex, List.take_left' hlength, List.drop_left' hlength, ofHexDigits_hexDigits,
    Nat.mod_eq_of_lt h, Char.ofNat_toNat]

theorem readChar?_numericEscape (c : Char) (rest : List Char) :
    readChar? (numericEscape c ++ rest) = some (c, rest) := by
  have hword : c.toNat < 16 ^ 8 := c.val.toNat_lt
  dsimp only [numericEscape]
  split
  · next h => exact congrArg some (readHex_append h rest)
  · split
    · next h => exact congrArg some (readHex_append h rest)
    · exact congrArg some (readHex_append hword rest)

theorem readChar?_cons (h : c ≠ '\\') : readChar? (c :: rest) = some (c, rest) := by
  rw [readChar?.eq_def]
  split <;> simp_all

/-- What is written of a character between quotes gives the character again. -/
theorem readChar?_escapeChar (hq : q = '\'' ∨ q = '"') (c : Char) (rest : List Char) :
    readChar? (escapeChar q c ++ rest) = some (c, rest) := by
  unfold escapeChar
  split
  · next h =>
    obtain rfl | rfl := h
    · obtain rfl | rfl := hq <;> rfl
    · rfl
  · next hplain =>
    have hc : c ≠ '\\' := fun he => hplain (.inr he)
    split
    · next h => exact h ▸ rfl
    split
    · next h => exact h ▸ rfl
    split
    · next h => exact h ▸ rfl
    split
    · exact readChar?_cons hc
    · exact readChar?_numericEscape c rest

/-- No character is written with the quote in front. -/
theorem exists_head_escapeChar (hq : q = '\'' ∨ q = '"') (c : Char) :
    ∃ first others, escapeChar q c = first :: others ∧ first ≠ q := by
  have hbackslash : '\\' ≠ q := by
    obtain rfl | rfl := hq <;> decide
  have hnumeric : ∃ others, numericEscape c = '\\' :: others := by
    dsimp only [numericEscape]
    split
    · exact ⟨_, rfl⟩
    · split <;> exact ⟨_, rfl⟩
  unfold escapeChar
  split
  · exact ⟨_, _, rfl, hbackslash⟩
  · next hplain =>
    split
    · exact ⟨_, _, rfl, hbackslash⟩
    split
    · exact ⟨_, _, rfl, hbackslash⟩
    split
    · exact ⟨_, _, rfl, hbackslash⟩
    split
    · exact ⟨_, _, rfl, fun he => hplain (.inl he)⟩
    · obtain ⟨others, hothers⟩ := hnumeric
      exact ⟨_, _, hothers, hbackslash⟩

/-- Two texts that are written alike up to the quote, and what stands behind them, are the same. By
induction on the one text: the other one has a next character just when this one has, and the same. -/
theorem escaped_append_inj (hq : q = '\'' ∨ q = '"')
    (h : cs.flatMap (escapeChar q) ++ q :: rest = ds.flatMap (escapeChar q) ++ q :: rest') :
    cs = ds ∧ rest = rest' := by
  induction cs generalizing ds with
  | nil =>
    cases ds with
    | nil => exact ⟨rfl, (List.cons.inj h).2⟩
    | cons d ds =>
      obtain ⟨first, others, hd, hne⟩ := exists_head_escapeChar hq d
      rw [List.flatMap_cons, hd] at h
      exact absurd (List.cons.inj h).1.symm hne
  | cons c cs ih =>
    cases ds with
    | nil =>
      obtain ⟨first, others, hc, hne⟩ := exists_head_escapeChar hq c
      rw [List.flatMap_cons, hc] at h
      exact absurd (List.cons.inj h).1 hne
    | cons d ds =>
      rw [List.flatMap_cons, List.flatMap_cons, List.append_assoc, List.append_assoc] at h
      have hread := congrArg readChar? h
      rw [readChar?_escapeChar hq, readChar?_escapeChar hq] at hread
      obtain ⟨rfl, hrest⟩ := Prod.mk.inj (Option.some.inj hread)
      obtain ⟨rfl, rfl⟩ := ih hrest
      exact ⟨rfl, rfl⟩

theorem quoteFor_cases (cs : List Char) : quoteFor cs = '\'' ∨ quoteFor cs = '"' := by
  unfold quoteFor
  split
  · exact .inr rfl
  · exact .inl rfl

/-- A quoted text and what stands behind it are those of one text only. -/
theorem quote_append_inj (h : quote cs ++ rest = quote ds ++ rest') : cs = ds ∧ rest = rest' := by
  simp only [quote, List.cons_append, List.append_assoc, List.nil_append, List.cons.injEq] at h
  obtain ⟨hq, h⟩ := h
  rw [← hq] at h
  exact escaped_append_inj (quoteFor_cases cs) h

end ObjectLang.Text
