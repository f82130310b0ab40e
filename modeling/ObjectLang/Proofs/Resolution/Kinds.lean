import ObjectLang.Analysis.Basic
import ObjectLang.Proofs.Types.Equivalence
import ObjectLang.Proofs.Typing.Rules
import ObjectLang.Types.Signature
import ObjectLang.Values.Basic

/-!
What kinds of values a type promises. The tiers promise one of the kinds below them, and an iterable
is a list of integers, since that is what loops go over.
-/

namespace ObjectLang

/-- The kind of a value is one that the primitive type promises. -/
def Prim.Includes (p : Prim) (v : Value) : Prop :=
  match p with
  | nil => v.kind = .nil
  | boolean => v.kind = .boolean
  | integer => v.kind = .integer
  | decimal => v.kind = .decimal
  | string => v.kind = .string
  | comparable => v.kind ∈ [ValueKind.boolean, .integer, .decimal, .string]
  | equatable => v.kind ∈ [ValueKind.nil, .boolean, .integer, .decimal, .string]
  | iterable => ∃ items, v = .list items ∧ ∀ item ∈ items, item.kind = .integer
  | any => True

/-- The kind of a value is one that the type promises. -/
def Ty.Includes (v : Value) : Ty → Prop
  | .prim p => p.Includes v
  | .fn _ _ => v.kind = .function
  | .object _ => v.kind = .object

variable {Γ : TypeScopes} {p q : Prim} {t u : Ty} {v : Value}

namespace Value

theorem exists_boolean (h : v.kind = .boolean) : ∃ b, v = .boolean b := by
  cases v <;> first | exact ⟨_, rfl⟩ | cases h

theorem exists_integer (h : v.kind = .integer) : ∃ n, v = .integer n := by
  cases v <;> first | exact ⟨_, rfl⟩ | cases h

theorem exists_decimal (h : v.kind = .decimal) : ∃ d, v = .decimal d := by
  cases v <;> first | exact ⟨_, rfl⟩ | cases h

theorem exists_string (h : v.kind = .string) : ∃ s, v = .string s := by
  cases v <;> first | exact ⟨_, rfl⟩ | cases h

theorem exists_function (h : v.kind = .function) : ∃ f, v = .function f := by
  cases v <;> first | exact ⟨_, rfl⟩ | cases h

theorem exists_object (h : v.kind = .object) : ∃ name members, v = .object name members := by
  cases v <;> first | exact ⟨_, _, rfl⟩ | cases h

end Value

theorem Prim.Includes.of_above (h : p.Includes v) (hq : q ∈ p.above) : q.Includes v := by
  cases p <;> simp [Prim.above] at hq
  all_goals
    simp only [Includes] at h
    rcases hq with rfl | rfl
    all_goals simp_all [Includes]

theorem Ty.Includes.of_isSubtype (h : t.Includes v) (htu : t.isSubtype Γ u = true) :
    u.Includes v := by
  rcases Bool.or_eq_true_iff.1 htu with htu | htu
  · cases Ty.matches_of_equiv htu with
    | prim p | fn _ _ | object _ _ => exact h
  · split at htu
    · trivial
    · exact Prim.Includes.of_above h (by simpa using htu)
    · cases htu

/-- A signature is read off its function type. -/
theorem Signature.toTy_injective {sig sig' : Signature} (h : sig.toTy = sig'.toTy) : sig = sig' := by
  obtain ⟨ps, r⟩ := sig
  obtain ⟨ps', r'⟩ := sig'
  obtain ⟨hps, hr⟩ := Ty.fn.inj h
  obtain rfl : ps = ps' := List.map_injective_iff.2 (fun _ _ => Ty.prim.inj) hps
  obtain rfl : r = r' := Ty.prim.inj hr
  rfl

/-- A type that is equal to the type of a signature is that type. -/
theorem Signature.eq_toTy_of_equiv {sig : Signature} (h : sig.toTy.equiv Γ t = true) :
    t = sig.toTy := by
  obtain ⟨ps, r⟩ := sig
  cases Ty.matches_of_equiv h with
  | fn hp hr =>
    have hparams (ps : List Prim) (us : List Ty)
        (hu : List.Forall₂ (fun t u => Ty.equiv Γ t u = true) (ps.map Ty.prim) us) :
        us = ps.map Ty.prim := by
      induction ps generalizing us with
      | nil =>
        cases hu
        rfl
      | cons p ps ih =>
        cases hu with
        | cons hpu hu => rw [Ty.prim_equiv_iff.1 hpu, ih _ hu, List.map_cons]
    rw [hparams _ _ hp, Ty.prim_equiv_iff.1 hr]
    rfl

/-- Some of the arguments, the last ones, are of the kinds of the parameters. A receiver may come
before them. -/
def Signature.Accepts (sig : Signature) (args : List Value) : Prop :=
  ∃ front vs, args = front ++ vs ∧ List.Forall₂ Prim.Includes sig.params vs

theorem Signature.Accepts.of_length {sig : Signature} {front args : List Value}
    (h : sig.Accepts (front ++ args)) (hlen : args.length = sig.params.length) :
    List.Forall₂ Prim.Includes sig.params args := by
  obtain ⟨front', vs, heq, hvs⟩ := h
  obtain ⟨-, rfl⟩ := List.append_inj' heq (hlen.trans hvs.length_eq)
  exact hvs

/-- Parameters are bound to arguments of the right kinds. -/
theorem includes_of_zip {names : List String} (hnodup : names.Nodup) {ps : List Prim}
    {args : List Value} (h : List.Forall₂ Prim.Includes ps args) : ∀ e ∈ names.zip args, ∀ t,
      Bindings.findIn e.1 (names.zip (ps.map Ty.prim)) = some t → t.Includes e.2 := by
  induction h generalizing names with
  | nil => simp
  | @cons p v ps args hv _ ih =>
    cases names with
    | nil => simp
    | cons n names =>
      obtain ⟨hn, hnodup⟩ := List.nodup_cons.1 hnodup
      rw [List.zip_cons_cons, List.map_cons, List.zip_cons_cons]
      refine List.forall_mem_cons.2 ⟨fun t ht => ?_, fun e he t ht => ih hnodup e he t ?_⟩
      · rw [Bindings.findIn, if_pos rfl] at ht
        cases ht
        exact hv
      · have hne : n ≠ e.1 := fun heq => hn (heq ▸ (List.of_mem_zip he).1)
        rwa [Bindings.findIn, if_neg hne] at ht

/-- A literal is of the kind of its type. -/
theorem Prim.includes_literal {l : Literal} (h : Analysis.literalType l = .ok p) :
    p.Includes l.toValue := by
  cases l <;> cases h <;> rfl

/-- Comparison: the order of two values. -/
def Operator.Orders (op : Operator) : Prop := op ∈ [Operator.lt, .le, .gt, .ge]

namespace Typed.OperatorTyped

variable {op : Operator} {l r : Ty}

/-- An operator gives a value of a primitive type. -/
theorem exists_prim (h : OperatorTyped Γ op l r t) : ∃ p, t = .prim p := by
  cases h <;> exact ⟨_, rfl⟩

theorem logical_inv (h : OperatorTyped Γ op l r t) (hop : op ∈ [Operator.and, .or]) :
    l = .prim .boolean ∧ r = .prim .boolean ∧ t = .prim .boolean := by
  cases h with
  | logical _ => exact ⟨rfl, rfl, rfl⟩
  | concatLeft | concatRight => simp at hop
  | arithmetic hop' | equality hop' | ordering hop' => revert hop hop'; cases op <;> simp

theorem add_inv (h : OperatorTyped Γ .add l r t) :
    t = .prim .string ∧ (l = .prim .string ∨ r = .prim .string) ∨
      ∃ p ∈ [Prim.integer, .decimal], l = .prim p ∧ r = .prim p ∧ t = .prim p := by
  cases h with
  | concatLeft => exact Or.inl ⟨rfl, Or.inl rfl⟩
  | concatRight => exact Or.inl ⟨rfl, Or.inr rfl⟩
  | arithmetic _ hp => exact Or.inr ⟨_, hp, rfl, rfl, rfl⟩
  | logical hop | equality hop | ordering hop => simp at hop

theorem arithmetic_inv (h : OperatorTyped Γ op l r t) (hop : op ∈ [Operator.sub, .mul, .div]) :
    ∃ p ∈ [Prim.integer, .decimal], l = .prim p ∧ r = .prim p ∧ t = .prim p := by
  cases h with
  | arithmetic _ hp => exact ⟨_, hp, rfl, rfl, rfl⟩
  | concatLeft | concatRight => simp at hop
  | logical hop' | equality hop' | ordering hop' => revert hop hop'; cases op <;> simp

theorem equality_inv (h : OperatorTyped Γ op l r t) (hop : op ∈ [Operator.eq, .ne]) :
    t = .prim .boolean := by
  cases h with
  | equality _ _ _ => rfl
  | concatLeft | concatRight => simp at hop
  | logical hop' | arithmetic hop' | ordering hop' => revert hop hop'; cases op <;> simp

/-- Two values of one type are compared, which is a type below the tier of comparable values or that
tier itself. -/
theorem ordering_inv (h : OperatorTyped Γ op l r t) (hop : op.Orders) :
    t = .prim .boolean ∧
      ∃ p ∈ [Prim.boolean, .integer, .decimal, .string, .comparable], l = .prim p ∧ r = .prim p := by
  cases h with
  | ordering _ hl _ heq =>
    refine ⟨rfl, ?_⟩
    cases l with
    | prim p =>
      obtain rfl : r = .prim p := Ty.prim_equiv_iff.1 heq
      refine ⟨p, ?_, rfl, rfl⟩
      rcases Bool.or_eq_true_iff.1 hl with hl | hl
      · cases Ty.matches_of_equiv hl
        simp
      · revert hl
        cases p <;> simp [Prim.above]
    | fn _ _ | object _ =>
      rcases Bool.or_eq_true_iff.1 hl with hl | hl
      · cases Ty.matches_of_equiv hl
      · cases hl
  | concatLeft | concatRight => simp [Operator.Orders] at hop
  | logical hop' | arithmetic hop' | equality hop' =>
    revert hop hop'
    cases op <;> simp [Operator.Orders]

/-- Other than the tier itself, the types of values that are compared hold values of one kind. -/
theorem ordering_inv_of_ne (h : OperatorTyped Γ op l r t) (hop : op.Orders)
    (hl : l ≠ .prim .comparable) : t = .prim .boolean ∧
      ∃ p ∈ [Prim.boolean, .integer, .decimal, .string], l = .prim p ∧ r = .prim p := by
  obtain ⟨rfl, p, hp, rfl, rfl⟩ := h.ordering_inv hop
  have hne : p ≠ .comparable := fun heq => hl (heq ▸ rfl)
  exact ⟨rfl, p, by simpa [hne] using hp, rfl, rfl⟩

end Typed.OperatorTyped

end ObjectLang
