import ObjectLang.Proofs.Evaluation.Results
import ObjectLang.Proofs.Finite.Acyclic
import ObjectLang.Proofs.Resolution.Operators
import ObjectLang.Proofs.Typing.Soundness

/-!
Operators on operands that the type checker lets through. An expression without calls, properties
and objects changes nothing. It gives a value of a kind below its type, or else some division in it
is by zero.
-/

namespace ObjectLang

/-- The expression is built from literals, groups, binary operators, and variables as given. -/
inductive Expr.Operators (P : String → Prop) : Expr → Prop where
  | literal (value : Literal) : Operators P (.literal value)
  | group {inner : Expr} : Operators P inner → Operators P (.group inner)
  | binary (symbol : String) {x y : Expr} : Operators P x → Operators P y →
      Operators P (.binary symbol x y)
  | var {name : String} : P name → Operators P (.var name)

/-- The values of the kind are of the type. A function is of any function type and an object of any
object type, and a character is of no type of its own. -/
inductive ValueKind.Has : ValueKind → Ty → Prop where
  | nil : Has .nil (.prim .nil)
  | boolean : Has .boolean (.prim .boolean)
  | integer : Has .integer (.prim .integer)
  | decimal : Has .decimal (.prim .decimal)
  | string : Has .string (.prim .string)
  | list : Has .list (.prim .iterable)
  | function (params : List Ty) (returns : Ty) : Has .function (.fn params returns)
  | object (members : ScopeId) : Has .object (.object members)

/-- The kind is a subtype of the type. -/
def Ty.Admits (Γ : TypeScopes) (t : Ty) (k : ValueKind) : Prop :=
  t = .prim .any ∨ ∃ u, k.Has u ∧ u.isSubtype Γ t = true

/-- The types of values that no other type is below. -/
def Prim.exact : List Prim := [nil, boolean, integer, decimal, string]

section Kinds

variable {Γ : TypeScopes} {p : Prim} {k : ValueKind} {t u : Ty} {v : Value}

theorem Prim.exact_of_numeric (hp : p ∈ [Prim.integer, .decimal]) : p ∈ Prim.exact := by
  revert hp
  cases p <;> decide

theorem ValueKind.Has.admits (h : k.Has (.prim p)) : (Ty.prim p).Admits Γ k :=
  .inr ⟨.prim p, h, Ty.isSubtype_prim_iff.2 (.inl rfl)⟩

/-- Below a type of values, there is no other kind than its own. -/
theorem Ty.Admits.has (h : (Ty.prim p).Admits Γ k) (hp : p ∈ Prim.exact) : k.Has (.prim p) := by
  rcases h with h | ⟨u, hu, hsub⟩
  · cases h
    simp [Prim.exact] at hp
  · rcases Ty.isSubtype_prim_iff.1 hsub with rfl | rfl | ⟨q, rfl, hq⟩
    · exact hu
    · simp [Prim.exact] at hp
    · exfalso
      revert hp hq
      cases q <;> cases p <;> decide

theorem Ty.Admits.includes (h : (Ty.prim p).Admits Γ v.kind) (hp : p ∈ Prim.exact) :
    p.Includes v := by
  have hhas := h.has hp
  generalize hk : v.kind = k at hhas
  cases hhas with
  | list => simp [Prim.exact] at hp
  | _ => exact hk

theorem ValueKind.has_literal {value : Literal} (h : Analysis.literalType value = .ok p) :
    value.toValue.kind.Has (.prim p) := by
  cases value <;> cases h <;> constructor

/-- There is nothing inside a value that is neither a list nor an object. -/
theorem Value.acc_of_has {Δ : ValueScopes} (h : v.kind.Has (.prim p)) (hp : p ∈ Prim.exact) :
    Acc (Value.Inside Δ) v := by
  refine ⟨_, fun w hw => ?_⟩
  generalize hk : v.kind = k at h
  cases h with
  | list => simp [Prim.exact] at hp
  | _ => cases v <;> first | exact hw.elim | cases hk

/-- Operators never give a value of a tier. -/
theorem Typed.OperatorTyped.exists_exact {op : Operator} {l r : Ty}
    (h : OperatorTyped Γ op l r t) : ∃ p ∈ Prim.exact, t = .prim p := by
  cases h with
  | arithmetic _ hp => exact ⟨_, Prim.exact_of_numeric hp, rfl⟩
  | _ => exact ⟨_, by decide, rfl⟩

end Kinds

namespace Evaluation

open Typed (OperatorTyped)

/-- A run that changes nothing, and gives a value that comes to an end, of a kind below the type,
unless it fails on a division by zero. -/
inductive Delivers (Γ : TypeScopes) (m : Machine) (t : Ty) : Ending → Prop where
  | value {v : Value} : Acc (Value.Inside m.scopes) v → t.Admits Γ v.kind → Delivers Γ m t (.ok v m)
  | divisionByZero : Delivers Γ m t (.error (.error .divisionByZero) m)

variable {Γ : TypeScopes} {m : Machine} {op : Operator} {p : Prim} {l r t : Ty} {a b v : Value}

/-- Nothing is inside a value of a type that has no other below it. -/
theorem delivers_exact (h : v.kind.Has (.prim p)) (hp : p ∈ Prim.exact) :
    Delivers Γ m (.prim p) (.ok v m) := .value (Value.acc_of_has h hp) h.admits

theorem delivers_boolean (answer : Bool) :
    Delivers Γ m (.prim .boolean) (.ok (.boolean answer) m) := delivers_exact .boolean (by decide)

section Values

variable (hacc : Acc (Value.Inside m.scopes) a) (hacc' : Acc (Value.Inside m.scopes) b)
  (ha : l.Admits Γ a.kind) (hb : r.Admits Γ b.kind)

include hacc in
theorem display_ok : ∃ text, display a m = .ok text m := by
  obtain ⟨text, htext⟩ := Option.isSome_iff_exists.1 (Value.display_isSome hacc)
  exact ⟨text, by rw [display_apply, htext]⟩

include hacc in
/-- Values that come to an end are equal or they are not, and either answer will do. -/
theorem delivers_equality (f : Bool → Bool) (b : Value) :
    Delivers Γ m (.prim .boolean) ((do return .boolean (f (← equal a b)) : EvalM Value) m) := by
  obtain ⟨answer, hanswer⟩ := Option.isSome_iff_exists.1 (Value.equal_isSome hacc b)
  rw [bind_apply, equal_apply, hanswer]
  exact delivers_boolean (f answer)

section Arithmetic

variable (hp : p ∈ [Prim.integer, .decimal]) (hl : l = .prim p) (hr : r = .prim p)
include ha hb hp hl hr

theorem numbers_of_admits : (p = .integer ∧ ∃ i j, a = .integer i ∧ b = .integer j) ∨
    p = .decimal ∧ ∃ i j, a = .decimal i ∧ b = .decimal j := by
  subst hl hr
  exact Value.exists_numbers hp (ha.includes (Prim.exact_of_numeric hp))
    (hb.includes (Prim.exact_of_numeric hp))

theorem delivers_arithmetic (integers : Int → Int → Int) (decimals : Decimal → Decimal → Decimal) :
    Delivers Γ m (.prim p) (arithmetic op integers decimals a b m) := by
  obtain ⟨rfl, i, j, rfl, rfl⟩ | ⟨rfl, i, j, rfl, rfl⟩ := numbers_of_admits ha hb hp hl hr
  · exact delivers_exact .integer (by decide)
  · exact delivers_exact .decimal (by decide)

theorem delivers_divide : Delivers Γ m (.prim p) (divide a b m) := by
  obtain ⟨rfl, i, j, rfl, rfl⟩ | ⟨rfl, i, j, rfl, rfl⟩ := numbers_of_admits ha hb hp hl hr
  · rw [divide]
    split
    · exact .divisionByZero
    · exact delivers_exact .integer (by decide)
  · rw [divide]
    split
    · exact .divisionByZero
    · exact delivers_exact .decimal (by decide)

end Arithmetic

include hacc hacc' ha hb in
/-- A text on either side is joined with the text of the other, which has one. -/
theorem delivers_plus (hop : OperatorTyped Γ .add l r t) : Delivers Γ m t (plus a b m) := by
  have hjoin (s : String) : Delivers Γ m (.prim .string) (.ok (.string s) m) :=
    delivers_exact .string (by decide)
  obtain ⟨rfl, hstring⟩ | ⟨p, hp, hl, hr, rfl⟩ := hop.add_inv
  · unfold plus
    split
    · obtain ⟨text, htext⟩ := display_ok hacc'
      rw [bind_apply, htext]
      exact hjoin _
    · obtain ⟨text, htext⟩ := display_ok hacc
      rw [bind_apply, htext]
      exact hjoin _
    · next hleft hright =>
      rcases hstring with rfl | rfl
      · obtain ⟨s, rfl⟩ := Value.exists_string (ha.includes (by decide))
        exact absurd rfl (hleft s)
      · obtain ⟨s, rfl⟩ := Value.exists_string (hb.includes (by decide))
        exact absurd rfl (hright s)
  · obtain ⟨rfl, i, j, rfl, rfl⟩ | ⟨rfl, i, j, rfl, rfl⟩ := numbers_of_admits ha hb hp hl hr
    · exact delivers_exact .integer (by decide)
    · exact delivers_exact .decimal (by decide)

include ha hb in
/-- Values of one type have an order, if the type is not the tier of all that can be compared. -/
theorem delivers_ordering (answer : Value → Value → Option Bool) (hop : OperatorTyped Γ op l r t)
    (horder : op.Orders) (hne : l ≠ .prim .comparable)
    (hanswer : ∀ p ∈ [Prim.boolean, .integer, .decimal, .string], ∀ a b, p.Includes a →
      p.Includes b → ∃ b', answer a b = some b') :
    Delivers Γ m t (ordering op (answer a b) a b m) := by
  obtain ⟨rfl, p, hp, rfl, rfl⟩ := hop.ordering_inv_of_ne horder hne
  have hexact : p ∈ Prim.exact := List.mem_cons_of_mem _ hp
  obtain ⟨b', hb'⟩ := hanswer p hp a b (ha.includes hexact) (hb.includes hexact)
  rw [hb']
  exact delivers_boolean b'

end Values

section Endings

variable {e e' : Ending} (hl : Delivers Γ m l e) (hr : Delivers Γ m r e')
include hl hr

/-- AND and OR look at the right operand only where the left one does not decide. -/
theorem delivers_logical (hop : OperatorTyped Γ op l r t) (hlogical : op ∈ [Operator.and, .or]) :
    Delivers Γ m t (binary op (fun _ => e) (fun _ => e') m) := by
  obtain ⟨rfl, rfl, rfl⟩ := hop.logical_inv hlogical
  simp only [List.mem_cons, List.not_mem_nil, or_false] at hlogical
  cases hl with
  | divisionByZero => rcases hlogical with rfl | rfl <;> exact .divisionByZero
  | value _ ha =>
    obtain ⟨left, rfl⟩ := Value.exists_boolean (ha.includes (by decide))
    have hright (op : Operator) : Delivers Γ m (.prim .boolean) (logical op (fun _ => e') m) := by
      cases hr with
      | divisionByZero => exact .divisionByZero
      | value _ hb =>
        obtain ⟨right, rfl⟩ := Value.exists_boolean (hb.includes (by decide))
        exact delivers_boolean right
    rcases hlogical with rfl | rfl
    · cases left with
      | true => exact hright .and
      | false => exact delivers_boolean false
    · cases left with
      | true => exact delivers_boolean true
      | false => exact hright .or

/-- All other operators are applied to the values of both operands, if there are any. -/
theorem delivers_strict {f : Value → Value → EvalM Value}
    (h : ∀ a b, Acc (Value.Inside m.scopes) a → Acc (Value.Inside m.scopes) b →
      l.Admits Γ a.kind → r.Admits Γ b.kind → Delivers Γ m t (f a b m)) :
    Delivers Γ m t ((do f (← fun _ => e) (← fun _ => e') : EvalM Value) m) := by
  cases hl with
  | divisionByZero => exact .divisionByZero
  | value hacc ha =>
    cases hr with
    | divisionByZero => exact .divisionByZero
    | value hacc' hb => exact h _ _ hacc hacc' ha hb

/-- One case for each operator. -/
theorem delivers_operator (hop : OperatorTyped Γ op l r t) (hne : l ≠ .prim .comparable) :
    Delivers Γ m t (binary op (fun _ => e) (fun _ => e') m) := by
  cases op with
  | and | or => exact delivers_logical hl hr hop (by simp)
  | add =>
    refine delivers_strict hl hr fun a b hacc hacc' ha hb => ?_
    exact delivers_plus hacc hacc' ha hb hop
  | sub | mul =>
    obtain ⟨p, hp, hl', hr', rfl⟩ := hop.arithmetic_inv (by simp)
    exact delivers_strict hl hr fun a b _ _ ha hb => delivers_arithmetic ha hb hp hl' hr' _ _
  | div =>
    obtain ⟨p, hp, hl', hr', rfl⟩ := hop.arithmetic_inv (by simp)
    exact delivers_strict hl hr fun a b _ _ ha hb => delivers_divide ha hb hp hl' hr'
  | eq =>
    obtain rfl := hop.equality_inv (by simp)
    exact delivers_strict hl hr fun a b hacc _ _ _ => delivers_equality hacc id b
  | ne =>
    obtain rfl := hop.equality_inv (by simp)
    exact delivers_strict hl hr fun a b hacc _ _ _ => delivers_equality hacc not b
  | lt =>
    refine delivers_strict hl hr fun a b _ _ ha hb => ?_
    exact delivers_ordering ha hb (fun a b => a.less? b) hop (by simp [Operator.Orders]) hne
      fun p hp a b ha hb => (Value.exists_order hp ha hb).1
  | le =>
    refine delivers_strict hl hr fun a b _ _ ha hb => ?_
    exact delivers_ordering ha hb (fun a b => a.lessEq? b) hop (by simp [Operator.Orders]) hne
      fun p hp a b ha hb => (Value.exists_order hp ha hb).2
  | gt =>
    refine delivers_strict hl hr fun a b _ _ ha hb => ?_
    exact delivers_ordering ha hb (fun a b => b.less? a) hop (by simp [Operator.Orders]) hne
      fun p hp a b ha hb => (Value.exists_order hp hb ha).1
  | ge =>
    refine delivers_strict hl hr fun a b _ _ ha hb => ?_
    exact delivers_ordering ha hb (fun a b => b.lessEq? a) hop (by simp [Operator.Orders]) hne
      fun p hp a b ha hb => (Value.exists_order hp hb ha).2

end Endings

section Expressions

open Analysis (State analyze analyzeExpr)

variable {s ts : ScopeId} {st st' : State} {te : Typed.Expr Ty} {x : Expr}

/-- In a scope of values, a variable fits its type: it is bound to a value without cycles, of a kind
below the type, and the type is not the tier of all that can be compared. -/
def Fits (ts : ScopeId) (st : State) (s : ScopeId) (m : Machine) (name : String) : Prop :=
  ∀ t, st.scopes.lookup ts name = some t → t ≠ .prim .comparable ∧
    ∃ v, m.scopes.lookup s name = some v ∧ v.Acyclic m.scopes ∧ t.Admits st.scopes v.kind

/-- What is shown of every part of an operator expression: its type is not the tier of all that can
be compared, and evaluation delivers a value of that type. -/
structure Behaves (st : State) (s : ScopeId) (m : Machine) (x : Expr) (t : Ty) : Prop where
  ne_comparable : t ≠ .prim .comparable
  delivers : ∃ r, Evaluates s (.expr x) m r ∧ Delivers st.scopes m t r

theorem ne_comparable_of_exact (hp : p ∈ Prim.exact) : Ty.prim p ≠ .prim .comparable := by
  rintro h
  cases h
  revert hp
  decide

/-- By induction on the expression. Analysis of operators leaves its state as it is, so all parts
are seen in the same scopes. -/
theorem behaves_of_operators (hx : x.Operators (Fits ts st s m)) :
    ∀ te st', analyzeExpr ts x st = .ok te st' → st' = st ∧ Behaves st s m x te.type := by
  induction hx with
  | literal value =>
    intro te st' h
    obtain ⟨p, hp, rfl, rfl⟩ := Analysis.literal_inv h
    have hexact : p ∈ Prim.exact := by
      cases value <;> cases hp <;> decide
    exact ⟨rfl, ne_comparable_of_exact hexact, _, evaluates_literal s m value,
      delivers_exact (ValueKind.has_literal hp) hexact⟩
  | group _ ih =>
    intro te st' h
    obtain ⟨te, hte, rfl⟩ := Analysis.group_inv h
    obtain ⟨hst, hne, r, hr, hdelivers⟩ := ih te st' hte
    exact ⟨hst, hne, r, evaluates_group hr, hdelivers⟩
  | binary symbol _ _ ihx ihy =>
    intro te st' h
    obtain ⟨op, l, r, t, st₁, st₂, hop, hl, hr, ht, rfl⟩ := Analysis.binary_inv h
    obtain ⟨rfl, hne, e, he, hdelivers⟩ := ihx l st₁ hl
    obtain ⟨rfl, hne', e', he', hdelivers'⟩ := ihy r st₂ hr
    obtain ⟨rfl, -, htyped⟩ := Analysis.binaryType_ok ht
    obtain ⟨p, hp, rfl⟩ := (htyped ∅).exists_exact
    obtain rfl := Operator.ofSymbol?_eq_some_iff.1 hop
    refine ⟨rfl, ne_comparable_of_exact hp, _, evaluates_binary op he fun a m₁ ha => ?_,
      delivers_operator hdelivers hdelivers' (htyped _) hne⟩
    subst ha
    cases hdelivers with
    | value _ _ => exact he'
  | var hfits =>
    intro te st' h
    obtain ⟨t, ht, rfl, rfl⟩ := Analysis.var_inv h
    obtain ⟨hne, v, hv, hacyclic, hadmits⟩ := hfits t ht
    exact ⟨rfl, hne, _, evaluates_var hv, .value (Value.acc_of_acyclic hacyclic) hadmits⟩

/-- Operator expressions are sound. Where analysis accepts one, no variable in it has the type of
all that can be compared, and all are bound to values without cycles that have kinds below their
types, evaluation changes nothing: it gives a value of a kind below the type that analysis has
found, and of that very kind if the type has no other below it, or else it fails on a division by
zero. -/
theorem operators_sound (h : analyze ts (.expr x) st = .ok (.expr te) st')
    (hx : x.Operators (Fits ts st s m)) :
    (∃ v, Evaluates s (.expr x) m (.ok v m) ∧ te.type.Admits st.scopes v.kind ∧
      ∀ p ∈ Prim.exact, te.type = .prim p → v.kind.Has (.prim p)) ∨
    Evaluates s (.expr x) m (.error (.error .divisionByZero) m) := by
  obtain ⟨te', _, hte, hresult⟩ := bind_eq_ok.1 h
  obtain ⟨heq, rfl⟩ := Analysis.pure_eq_ok.1 hresult
  cases heq
  obtain ⟨-, -, r, hr, hdelivers⟩ := behaves_of_operators hx te _ hte
  cases hdelivers with
  | value _ hadmits =>
    exact .inl ⟨_, hr, hadmits, fun p hp hexact => (hexact ▸ hadmits).has hp⟩
  | divisionByZero => exact .inr hr

/-- `n < 0 OR e != nil AND ("o: " + o == 7 / n + w)`. -/
def sampler : Expr :=
  .binary "OR" (.binary "<" (.var "n") (.literal (.integer 0)))
    (.binary "AND" (.binary "!=" (.var "e") (.literal .nil))
      (.group (.binary "==" (.binary "+" (.literal (.string "o: ")) (.var "o"))
        (.binary "+" (.binary "/" (.literal (.integer 7)) (.var "n")) (.var "w")))))

/-- Variables of two kinds and of two tiers. -/
def samplerTypes : State :=
  ⟨(∅ : TypeScopes).addRoot (Bindings.ofList [("n", .prim .integer), ("e", .prim .equatable),
    ("o", .prim .any), ("w", .prim .string)]), #[]⟩

/-- Their values, one of them an object with a member. -/
def samplerValues : Machine :=
  ⟨((∅ : ValueScopes).addRoot (Bindings.ofList [("n", .integer 2), ("e", .boolean true),
    ("o", .object (some "Box") 1), ("w", .string "!")])).addRoot
      (Bindings.ofList [("width", .integer 1)]), #[], #[]⟩

theorem acyclic_box : Value.Acyclic samplerValues.scopes (.object (some "Box") 1) := by
  refine Value.acyclic_of_acc ⟨_, fun w ⟨name, hw⟩ => ?_⟩
  have hentries : (samplerValues.scopes.own 1).entries = [("width", .integer 1)] := rfl
  have hmem : (name, w) ∈ (samplerValues.scopes.own 1).entries := Bindings.find?_eq_some_iff.1 hw
  rw [hentries, List.mem_singleton] at hmem
  cases hmem
  exact Value.acc_of_has .integer (by decide)

theorem operators_sound_sampler :
    ∃ te st', analyze 0 (.expr sampler) samplerTypes = .ok (.expr te) st' ∧
      sampler.Operators (Fits 0 samplerTypes 0 samplerValues) ∧
      ((∃ v, Evaluates 0 (.expr sampler) samplerValues (.ok v samplerValues) ∧
          te.type.Admits samplerTypes.scopes v.kind ∧
          ∀ p ∈ Prim.exact, te.type = .prim p → v.kind.Has (.prim p)) ∨
        Evaluates 0 (.expr sampler) samplerValues
          (.error (.error .divisionByZero) samplerValues)) := by
  have hfits (name : String) (p : Prim) (v : Value)
      (ht : samplerTypes.scopes.lookup 0 name = some (.prim p)) (hp : p ≠ .comparable)
      (hv : samplerValues.scopes.lookup 0 name = some v) (hacyclic : v.Acyclic samplerValues.scopes)
      (hkind : (Ty.prim p).Admits samplerTypes.scopes v.kind) :
      Fits 0 samplerTypes 0 samplerValues name := by
    intro t ht'
    obtain rfl : .prim p = t := Option.some.inj (ht.symm.trans ht')
    exact ⟨fun heq => hp (Ty.prim.inj heq), v, hv, hacyclic, hkind⟩
  have hplain (v : Value) (p : Prim) (h : v.kind.Has (.prim p)) (hp : p ∈ Prim.exact) :
      v.Acyclic samplerValues.scopes := Value.acyclic_of_acc (Value.acc_of_has h hp)
  have hn : Fits 0 samplerTypes 0 samplerValues "n" :=
    hfits "n" .integer (.integer 2) rfl (by decide) rfl
      (hplain _ .integer .integer (by decide)) ValueKind.Has.integer.admits
  have he : Fits 0 samplerTypes 0 samplerValues "e" :=
    hfits "e" .equatable (.boolean true) rfl (by decide) rfl
      (hplain _ .boolean .boolean (by decide))
      (.inr ⟨_, .boolean, Ty.isSubtype_prim_iff.2 (.inr (.inr ⟨.boolean, rfl, by decide⟩))⟩)
  have ho : Fits 0 samplerTypes 0 samplerValues "o" :=
    hfits "o" .any (.object (some "Box") 1) rfl (by decide) rfl acyclic_box (.inl rfl)
  have hw : Fits 0 samplerTypes 0 samplerValues "w" :=
    hfits "w" .string (.string "!") rfl (by decide) rfl
      (hplain _ .string .string (by decide)) ValueKind.Has.string.admits
  have hsampler : sampler.Operators (Fits 0 samplerTypes 0 samplerValues) :=
    .binary _ (.binary _ (.var hn) (.literal _)) (.binary _ (.binary _ (.var he) (.literal _))
      (.group (.binary _ (.binary _ (.literal _) (.var ho))
        (.binary _ (.binary _ (.literal _) (.var hn)) (.var hw)))))
  have hruns : (match analyze 0 (.expr sampler) samplerTypes with
      | .ok _ _ => true
      | .error _ _ => false) = true := by cbv
  cases h : analyze 0 (.expr sampler) samplerTypes with
  | ok tp st' =>
    obtain ⟨te, _, -, hresult⟩ := bind_eq_ok.1 h
    obtain ⟨rfl, rfl⟩ := Analysis.pure_eq_ok.1 hresult
    exact ⟨te, _, rfl, hsampler, operators_sound h hsampler⟩
  | error e st' => simp [h] at hruns

end Expressions

end Evaluation

end ObjectLang
