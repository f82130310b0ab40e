import ObjectLang.Proofs.Decimal.Text
import ObjectLang.Proofs.Evaluation.Steps
import ObjectLang.Proofs.Text.Quoted

/-!
The text of a plain value that shows how it is built tells which value it is. Every such text ends
where the value is complete, whatever stands behind it, so in a list each item ends before the next one
begins. What kind of value it is shows in the first character inside the box.
-/

namespace ObjectLang

section Lists

variable {α : Type} {a : α} {xs ys rest rest' : List α}

/-- What stands in front of the first mark, and behind it, is the same in equal lists. -/
theorem append_cons_inj (hx : a ∉ xs) (hy : a ∉ ys) (h : xs ++ a :: rest = ys ++ a :: rest') :
    xs = ys ∧ rest = rest' := by
  induction xs generalizing ys with
  | nil =>
    cases ys with
    | nil => exact ⟨rfl, (List.cons.inj h).2⟩
    | cons y ys => exact absurd (List.mem_cons.2 (.inl (List.cons.inj h).1)) hy
  | cons x xs ih =>
    rw [List.mem_cons, not_or] at hx
    cases ys with
    | nil => exact absurd (List.cons.inj h).1.symm hx.1
    | cons y ys =>
      rw [List.mem_cons, not_or] at hy
      obtain ⟨rfl, hrest⟩ := List.cons.inj h
      obtain ⟨rfl, rfl⟩ := ih hx.2 hy.2 hrest
      exact ⟨rfl, rfl⟩

theorem intercalate_cons (separator x : List α) (xs : List (List α)) :
    separator.intercalate (x :: xs) = x ++ xs.flatMap (separator ++ ·) := by
  induction xs generalizing x with
  | nil => simp
  | cons y ys ih => rw [List.intercalate_cons_cons, ih, List.flatMap_cons, List.append_assoc,
      List.append_assoc]

end Lists

namespace Value

variable {Γ Δ : ValueScopes} {v w : Value} {vs ws : List Value} {rest rest' : List Char}

/-- No function and no object is in the value. -/
inductive IsPayload : Value → Prop where
  | nil : IsPayload nil
  | boolean (b : Bool) : IsPayload (boolean b)
  | integer (n : Int) : IsPayload (integer n)
  | decimal (d : Decimal) : IsPayload (decimal d)
  | string (s : String) : IsPayload (string s)
  | character (c : Char) : IsPayload (character c)
  | list {items : List Value} : (∀ v ∈ items, IsPayload v) → IsPayload (list items)

def inspectText (Γ : ValueScopes) (v : Value) : List Char := (inspect Γ v).toList

/-- The items of a list with what stands between them. -/
def itemsText (Γ : ValueScopes) (vs : List Value) : List Char :=
  ", ".toList.intercalate (vs.map (inspectText Γ))

/-- What stands in the box. -/
def boxedText (Γ : ValueScopes) : Value → List Char
  | nil => "None".toList
  | boolean b => (if b then "True" else "False").toList
  | integer n => (toString n).toList
  | decimal d => "Decimal('".toList ++ (d.write ++ ['\'', ')'])
  | string s => Text.quote s.toList
  | character c => "Char(value=".toList ++ (Text.quote [c] ++ [')'])
  | list items => '[' :: (itemsText Γ items ++ [']'])
  | function _ | object _ _ => []

theorem inspectAll_eq (vs : List Value) : inspectAll Γ vs = vs.map (inspect Γ) := by
  induction vs with
  | nil => rfl
  | cons v vs ih => rw [inspectAll, ih, List.map_cons]

theorem toList_between (opening text closing : String) :
    (opening ++ text ++ closing).toList = opening.toList ++ (text.toList ++ closing.toList) := by
  rw [String.toList_append, String.toList_append, List.append_assoc]

theorem inspectText_eq (hv : v.IsPayload) :
    inspectText Γ v = "Primitive(value=".toList ++ (boxedText Γ v ++ [')']) := by
  have hplain (text : String) :
      (plain text).toList = "Primitive(value=".toList ++ (text.toList ++ [')']) :=
    toList_between _ text _
  unfold inspectText boxedText
  cases hv with
  | list _ =>
    have hitems : inspectText Γ = String.toList ∘ inspect Γ := rfl
    simp only [inspect, hplain, inspectAll_eq, itemsText, hitems, toList_between,
      String.toList_intercalate, List.map_map]
    rfl
  | decimal d =>
    simp only [inspect, hplain, Decimal.toText, toList_between, String.toList_ofList]
    rfl
  | string s => simp only [inspect, hplain, Text.quoted, String.toList_ofList]
  | character c =>
    simp only [inspect, hplain, Text.quoted, toList_between, String.toList_ofList,
      String.toList_singleton, Char.toString_eq_singleton]
    rfl
  | _ => simp only [inspect, hplain]

/-- The kind of value that begins with a character in its box. -/
def kindOf : Char → ValueKind
  | 'N' => .nil
  | 'T' | 'F' => .boolean
  | 'D' => .decimal
  | '\'' | '"' => .string
  | 'C' => .character
  | '[' => .list
  | _ => .integer

theorem kindOf_mark {c : Char} (h : c.isDigit = true ∨ c = '-') : kindOf c = .integer := by
  have hall : ∀ d < 10, kindOf (Nat.digitChar d) = .integer := by decide
  obtain h | rfl := h
  · obtain ⟨d, hd, rfl⟩ := Decimal.eq_digitChar h
    exact hall d hd
  · rfl

/-- An integer is written with digits, after a sign if it is negative. -/
theorem toList_integer (n : Int) : (toString n).toList =
    if 0 ≤ n then Decimal.digits n.natAbs else '-' :: Decimal.digits n.natAbs := by
  rw [Int.toString_eq_repr, Int.repr_eq_if]
  split
  · next h =>
    have hnat : n.toNat = n.natAbs := by omega
    rw [Nat.toList_repr, Decimal.digits, hnat]
  · next h =>
    have hnat : (-n).toNat = n.natAbs := by omega
    rw [String.toList_append, Nat.toList_repr, Decimal.digits, hnat]
    rfl

theorem mark_of_mem_integer {n : Int} {c : Char} (h : c ∈ (toString n).toList) :
    c.isDigit = true ∨ c = '-' := by
  rw [toList_integer] at h
  split at h
  · exact .inl (Decimal.isDigit_of_mem_digits h)
  · obtain rfl | h := List.mem_cons.1 h
    · exact .inr rfl
    · exact .inl (Decimal.isDigit_of_mem_digits h)

theorem integer_ne_nil (n : Int) : (toString n).toList ≠ [] := by
  rw [toList_integer]
  split
  · exact Decimal.digits_ne_nil _
  · exact List.cons_ne_nil _ _

theorem integer_injective {n k : Int} (h : (toString n).toList = (toString k).toList) : n = k := by
  have hsign (i j : Nat) : Decimal.digits i ≠ '-' :: Decimal.digits j := fun h =>
    absurd (Decimal.isDigit_of_mem_digits (h ▸ List.mem_cons_self ..)) (by decide)
  have hdigits {i j : Nat} (h : Decimal.digits i = Decimal.digits j) : i = j := by
    rw [← Decimal.ofDigits_digits i, h, Decimal.ofDigits_digits]
  rw [toList_integer, toList_integer] at h
  split at h <;> split at h
  · have := hdigits h
    omega
  · exact absurd h (hsign _ _)
  · exact absurd h.symm (hsign _ _)
  · have := hdigits (List.cons.inj h).2
    omega

theorem exists_boxedText (Γ : ValueScopes) (hv : v.IsPayload) :
    ∃ c cs, boxedText Γ v = c :: cs ∧ kindOf c = v.kind := by
  cases hv with
  | boolean b => cases b <;> exact ⟨_, _, rfl, rfl⟩
  | integer n =>
    obtain ⟨c, cs, hn⟩ := List.exists_cons_of_ne_nil (integer_ne_nil n)
    have hc : c ∈ (toString n).toList := by
      rw [hn]
      exact List.mem_cons_self ..
    exact ⟨c, cs, hn, kindOf_mark (mark_of_mem_integer hc)⟩
  | string s =>
    refine ⟨Text.quoteFor s.toList, _, rfl, ?_⟩
    obtain hq | hq := Text.quoteFor_cases s.toList <;> rw [hq] <;> rfl
  | _ => exact ⟨_, _, rfl, rfl⟩

theorem kind_eq_of_boxed (hv : v.IsPayload) (hw : w.IsPayload)
    (h : boxedText Γ v ++ rest = boxedText Δ w ++ rest') : v.kind = w.kind := by
  obtain ⟨c, cs, hv, hc⟩ := exists_boxedText Γ hv
  obtain ⟨d, ds, hw, hd⟩ := exists_boxedText Δ hw
  rw [hv, hw] at h
  rw [← hc, ← hd, (List.cons.inj h).1]

/-- Whatever stands behind it, the text of the value is that of no other payload. -/
def Apart (Γ Δ : ValueScopes) (v : Value) : Prop := ∀ {w}, w.IsPayload → ∀ {rest rest'},
  inspectText Γ v ++ rest = inspectText Δ w ++ rest' → v = w ∧ rest = rest'

/-- By induction on the one list: there is another item behind a comma, and none behind a bracket. -/
theorem others_append_inj (hvs : ∀ v ∈ vs, Apart Γ Δ v) (hws : ∀ w ∈ ws, w.IsPayload)
    (h : (vs.map (inspectText Γ)).flatMap (", ".toList ++ ·) ++ (']' :: rest) =
      (ws.map (inspectText Δ)).flatMap (", ".toList ++ ·) ++ (']' :: rest')) :
    vs = ws ∧ rest = rest' := by
  induction vs generalizing ws with
  | nil =>
    cases ws with
    | nil => exact ⟨rfl, (List.cons.inj h).2⟩
    | cons w ws => exact absurd (List.cons.inj h).1 (by decide)
  | cons v vs ih =>
    cases ws with
    | nil => exact absurd (List.cons.inj h).1 (by decide)
    | cons w ws =>
      rw [List.forall_mem_cons] at hvs hws
      simp only [List.map_cons, List.flatMap_cons, List.append_assoc] at h
      obtain ⟨rfl, hrest⟩ := hvs.1 hws.1 (List.append_cancel_left h)
      obtain ⟨rfl, rfl⟩ := ih hvs.2 hws.2 hrest
      exact ⟨rfl, rfl⟩

theorem items_append_inj (hvs : ∀ v ∈ vs, Apart Γ Δ v) (hws : ∀ w ∈ ws, w.IsPayload)
    (hpayload : ∀ v ∈ vs, v.IsPayload)
    (h : itemsText Γ vs ++ (']' :: rest) = itemsText Δ ws ++ (']' :: rest')) :
    vs = ws ∧ rest = rest' := by
  cases vs with
  | nil =>
    cases ws with
    | nil => exact ⟨rfl, (List.cons.inj h).2⟩
    | cons w ws =>
      rw [itemsText, itemsText, List.map_cons, intercalate_cons,
        inspectText_eq (hws w (List.mem_cons_self ..))] at h
      exact absurd (List.cons.inj h).1 (by decide)
  | cons v vs =>
    cases ws with
    | nil =>
      rw [itemsText, itemsText, List.map_cons, intercalate_cons,
        inspectText_eq (hpayload v (List.mem_cons_self ..))] at h
      exact absurd (List.cons.inj h).1 (by decide)
    | cons w ws =>
      rw [List.forall_mem_cons] at hvs hws
      simp only [itemsText, List.map_cons, intercalate_cons, List.append_assoc] at h
      obtain ⟨rfl, hrest⟩ := hvs.1 hws.1 h
      obtain ⟨rfl, rfl⟩ := others_append_inj hvs.2 hws.2 hrest
      exact ⟨rfl, rfl⟩

/-- Two payloads are written alike only if they are of one kind and are written alike inside the box. -/
theorem boxed_of_inspect (hv : v.IsPayload) (hw : w.IsPayload)
    (h : inspectText Γ v ++ rest = inspectText Δ w ++ rest') : v.kind = w.kind ∧
      boxedText Γ v ++ ')' :: rest = boxedText Δ w ++ ')' :: rest' := by
  simp only [inspectText_eq hv, inspectText_eq hw, List.append_assoc, List.singleton_append] at h
  have hboxed := List.append_cancel_left h
  exact ⟨kind_eq_of_boxed hv hw hboxed, hboxed⟩

/-- No number is written with a quote or a parenthesis. -/
theorem not_isMark : ¬Decimal.IsMark '\'' ∧ ¬Decimal.IsMark ')' := by
  simp only [Decimal.IsMark]
  decide

/-- By induction on the value. Inside the box, each kind of value shows where it ends. -/
theorem apart (hv : v.IsPayload) : Apart Γ Δ v := by
  induction hv with
  | nil =>
    intro w hw rest rest' h
    obtain ⟨hkind, h⟩ := boxed_of_inspect .nil hw h
    cases hw with
    | nil => exact ⟨rfl, (List.cons.inj (List.append_cancel_left h)).2⟩
    | _ => cases hkind
  | boolean a =>
    intro w hw rest rest' h
    obtain ⟨hkind, h⟩ := boxed_of_inspect (.boolean a) hw h
    cases hw with
    | boolean b =>
      have hab : a = b := by
        cases a <;> cases b <;> first | rfl | exact absurd (List.cons.inj h).1 (by decide)
      subst hab
      exact ⟨rfl, (List.cons.inj (List.append_cancel_left h)).2⟩
    | _ => cases hkind
  | integer n =>
    intro w hw rest rest' h
    obtain ⟨hkind, h⟩ := boxed_of_inspect (.integer n) hw h
    cases hw with
    | integer k =>
      have hmark (n : Int) : ')' ∉ (toString n).toList := fun h =>
        absurd (mark_of_mem_integer h) (by decide)
      obtain ⟨htext, hrest⟩ := append_cons_inj (hmark n) (hmark k) h
      exact ⟨congrArg integer (integer_injective htext), hrest⟩
    | _ => cases hkind
  | decimal d =>
    intro w hw rest rest' h
    obtain ⟨hkind, h⟩ := boxed_of_inspect (.decimal d) hw h
    cases hw with
    | decimal e =>
      unfold boxedText at h
      simp only [List.append_assoc, List.cons_append, List.nil_append] at h
      have hmark (d : Decimal) : '\'' ∉ d.write := fun h =>
        not_isMark.1 (Decimal.isMark_of_mem_write h)
      have hwritten := List.append_cancel_left h
      obtain ⟨htext, hrest⟩ := append_cons_inj (hmark d) (hmark e) hwritten
      simp only [List.cons.injEq, true_and] at hrest
      exact ⟨congrArg decimal (Decimal.write_injective htext), hrest⟩
    | _ => cases hkind
  | string s =>
    intro w hw rest rest' h
    obtain ⟨hkind, h⟩ := boxed_of_inspect (.string s) hw h
    cases hw with
    | string t =>
      obtain ⟨htext, hrest⟩ := Text.quote_append_inj h
      rw [String.toList_inj] at htext
      exact ⟨congrArg string htext, (List.cons.inj hrest).2⟩
    | _ => cases hkind
  | character c =>
    intro w hw rest rest' h
    obtain ⟨hkind, h⟩ := boxed_of_inspect (.character c) hw h
    cases hw with
    | character d =>
      unfold boxedText at h
      simp only [List.append_assoc, List.cons_append, List.nil_append] at h
      obtain ⟨htext, hrest⟩ := Text.quote_append_inj (List.append_cancel_left h)
      simp only [List.cons.injEq, true_and] at hrest
      exact ⟨congrArg character (List.singleton_inj.1 htext), hrest⟩
    | _ => cases hkind
  | @list items hitems ih =>
    intro w hw rest rest' h
    obtain ⟨hkind, h⟩ := boxed_of_inspect (.list hitems) hw h
    cases hw with
    | list hothers =>
      unfold boxedText at h
      simp only [List.append_assoc, List.cons_append, List.nil_append, List.cons.injEq, true_and] at h
      obtain ⟨rfl, hrest⟩ := items_append_inj ih hothers hitems h
      exact ⟨rfl, (List.cons.inj hrest).2⟩
    | _ => cases hkind

/-- The scopes play no part in the text of a payload. -/
theorem inspect_scopes (hv : v.IsPayload) : inspect Γ v = inspect Δ v := by
  induction hv with
  | list _ ih => rw [inspect, inspect, inspectAll_eq, inspectAll_eq, List.map_congr_left ih]
  | _ => rfl

theorem inspect_eq_iff (hv : v.IsPayload) (hw : w.IsPayload) :
    inspect Γ v = inspect Δ w ↔ v = w := by
  constructor
  · intro h
    have htexts : inspectText Γ v ++ [] = inspectText Δ w ++ [] := by rw [inspectText, h, inspectText]
    exact (apart hv hw htexts).1
  · rintro rfl
    exact inspect_scopes hv

end Value

namespace Evaluation

/-- For every value `debug` writes one line. For two values that are made of payloads only, in whatever
states of the program, the lines are the same just if the values are: they are of the same kind, their
texts have the same characters, their decimals the same sign, coefficient and exponent, and their lists
the same items. -/
theorem debug_identifies_payloads {v w : Value} (hv : v.IsPayload) (hw : w.IsPayload) (m m' : Machine) :
    ∃ line line', Native.debug.call [v] m = .ok .nil { m with output := m.output.push line } ∧
      Native.debug.call [w] m' = .ok .nil { m' with output := m'.output.push line' } ∧
      (line = line' ↔ v = w) :=
  ⟨v.inspect m.scopes, w.inspect m'.scopes, rfl, rfl, Value.inspect_eq_iff hv hw⟩

/-- Two texts. -/
def twoTexts : Value := .list [.string "x", .string "y"]

/-- One text that shows the end of a text and the beginning of another one. -/
def disguisedText : Value := .list [.string "x'), Primitive(value='y"]

theorem debug_identifies_payloads_disguised :
    twoTexts.IsPayload ∧ disguisedText.IsPayload ∧
    ∃ line line', Native.debug.call [twoTexts] ⟨∅, #[], #[]⟩ = .ok .nil ⟨∅, #[line], #[]⟩ ∧
      Native.debug.call [disguisedText] ⟨∅, #[], #[]⟩ = .ok .nil ⟨∅, #[line'], #[]⟩ ∧
      (line = line' ↔ twoTexts = disguisedText) := by
  have htwo : twoTexts.IsPayload :=
    .list (List.forall_mem_cons.2 ⟨.string _, List.forall_mem_singleton.2 (.string _)⟩)
  have hone : disguisedText.IsPayload := .list (List.forall_mem_singleton.2 (.string _))
  exact ⟨htwo, hone, debug_identifies_payloads htwo hone ⟨∅, #[], #[]⟩ ⟨∅, #[], #[]⟩⟩

end Evaluation

end ObjectLang
