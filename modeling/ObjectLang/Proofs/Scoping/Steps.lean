import ObjectLang.Proofs.Scoping.Heap

/-!
Which errors have nothing to do with names. The steps that only read the scopes, the operators and
the native functions fail with errors of other kinds, and make no closures. Which errors are ruled
out is a parameter, since the same steps are looked at for other reasons, too.
-/

namespace ObjectLang

/-- How many arguments a native function takes, if it does not take any number. A native method
takes the object that it is called on, too. -/
def Native.arity? : Native → Option Nat
  | .debug | .print | .log | .functionAny | .functionString => some 1
  | .range | .methodAny | .methodString => some 2
  | .list | .function | .method => none

namespace Evaluation

variable {α β : Type} {P : α → Prop} {Q : β → Prop} {x : EvalM α} {f : α → EvalM β}

/-- Faults that come about even among values of the right kinds, whatever else is ruled out. -/
class Mild (E : Fault → Prop) : Prop where
  divideByZero : ∀ e, e.kind = .divideByZero → E (.error e)
  tooDeep : E .tooDeep
  endless : E .endless

/-- Faults that come about in steps of their own, where values may be of any kind. -/
class Tolerates (E : Fault → Prop) : Prop extends Mild E where
  typeError : ∀ e, e.kind = .typeError → E (.error e)

/-- The errors that scoping rules out. -/
def scopingErrors : List EvalErrorKind :=
  [.undefinedName, .duplicateName, .unhandledReturn, .defect, .scope]

/-- A run may stop in this way for other reasons than scoping. -/
def Allowed : Fault → Prop
  | .error e => e.kind ∉ scopingErrors
  | .tooDeep => True
  | .endless => True

theorem allowed_error {e : EvalError} (kind : EvalErrorKind) (he : e.kind = kind)
    (h : kind ∉ scopingErrors) : Allowed (.error e) :=
  show e.kind ∉ scopingErrors from he ▸ h

instance : Tolerates Allowed where
  typeError _ he := allowed_error _ he (by decide)
  divideByZero _ he := allowed_error _ he (by decide)
  tooDeep := trivial
  endless := trivial

theorem ends_fail {P : α → Machine → Prop} {e : EvalError} {m : Machine} (kind : EvalErrorKind)
    (he : e.kind = kind) (h : kind ∉ scopingErrors) :
    Ends P Allowed ((fail e : EvalM α) m) := allowed_error kind he h

variable {E : Fault → Prop}

/-- A step that leaves all scopes alone, gives a result with `P`, and fails in `E` only. -/
def Quiet (E : Fault → Prop) (P : α → Prop) (x : EvalM α) : Prop :=
  ∀ m, Ends (fun a m' => P a ∧ m'.scopes = m.scopes) E (x m)

theorem Quiet.pure {a : α} (h : P a) : Quiet E P (pure a : EvalM α) := fun _ => ⟨h, rfl⟩

theorem Quiet.fail {e : EvalError} (h : E (.error e)) : Quiet E P (fail e : EvalM α) := fun _ => h

theorem Quiet.bind (hx : Quiet E P x) (hf : ∀ a, P a → Quiet E Q (f a)) :
    Quiet E Q (x >>= f) := by
  intro m
  apply (hx m).bind
  rintro a m₁ _ ⟨ha, hm⟩
  rw [← hm]
  exact hf a ha m₁

theorem quiet_report (event : Event) : Quiet E (fun _ => True) (report event) :=
  fun _ => ⟨trivial, rfl⟩

theorem quiet_writeLine (line : String) : Quiet E (fun _ => True) (writeLine line) :=
  fun _ => ⟨trivial, rfl⟩

/-- A wrong number of arguments is no fault. -/
def LenientArity (E : Fault → Prop) : Prop := ∀ e, e.kind = .arityMismatch → E (.error e)

theorem quiet_unary {P : Value → Prop} (f : Native) {run : Value → EvalM Value} {args : List Value}
    (h : args.length = 1 ∨ LenientArity E) (hr : ∀ v, args = [v] → Quiet E P (run v)) :
    Quiet E P (f.unary run args) := by
  unfold Native.unary
  split
  · exact hr _ rfl
  · next hne =>
    refine .fail (h.resolve_left (fun hlen => ?_) _ rfl)
    obtain ⟨v, rfl⟩ := List.length_eq_one_iff.1 hlen
    exact hne v rfl

theorem quiet_binaryNative {P : Value → Prop} (f : Native) {run : Value → Value → EvalM Value}
    {args : List Value} (h : args.length = 2 ∨ LenientArity E)
    (hr : ∀ v w, args = [v, w] → Quiet E P (run v w)) : Quiet E P (f.binary run args) := by
  unfold Native.binary
  split
  · exact hr _ _ rfl
  · next hne =>
    refine .fail (h.resolve_left (fun hlen => ?_) _ rfl)
    match args, hlen with
    | [v, w], _ => exact hne v w rfl

section Reading

variable [Mild E]

theorem quiet_display (v : Value) : Quiet E (fun _ => True) (display v) := by
  intro m
  rw [display_apply]
  cases v.display? m.scopes with
  | none => exact Mild.endless
  | some text => exact ⟨trivial, rfl⟩

theorem quiet_equal (v w : Value) : Quiet E (fun _ => True) (equal v w) := by
  intro m
  rw [equal_apply]
  cases v.equal? m.scopes w with
  | none => exact Mild.endless
  | some answer => exact ⟨trivial, rfl⟩

end Reading

variable [Tolerates E]

theorem quiet_requireObject (v : Value) :
    Quiet E (fun members => ∃ name, v = .object name members) (requireObject v) := by
  cases v <;> first | exact .pure ⟨_, rfl⟩ | exact .fail (Tolerates.typeError _ rfl)

theorem quiet_requireFunction (name : String) (v : Value) :
    Quiet E (fun f => v = .function f) (requireFunction name v) := by
  cases v <;> first | exact .pure rfl | exact .fail (Tolerates.typeError _ rfl)

theorem quiet_requireList (v : Value) : Quiet E (fun items => v = .list items) (requireList v) := by
  cases v <;> first | exact .pure rfl | exact .fail (Tolerates.typeError _ rfl)

theorem quiet_requireCondition (v : Value) : Quiet E (fun _ => True) (requireCondition v) := by
  cases v <;> first | exact .pure trivial | exact .fail (Tolerates.typeError _ rfl)

theorem quiet_requireOperand (op : Operator) (v : Value) :
    Quiet E (fun _ => True) (requireOperand op v) := by
  cases v <;> first | exact .pure trivial | exact .fail (Tolerates.typeError _ rfl)

/-- Values without closures in them. -/
def Plain (v : Value) : Prop := v.closures = []

/-- Values that hold no others and cannot be called, which is all that operators make. -/
def Scalar : Value → Prop
  | .list _ | .function _ | .object _ _ => False
  | _ => True

theorem Scalar.plain {v : Value} (hv : Scalar v) : Plain v := by
  cases v <;> first | rfl | exact hv.elim

theorem quiet_arithmetic (op : Operator) (integers : Int → Int → Int)
    (decimals : Decimal → Decimal → Decimal) (a b : Value) :
    Quiet E Scalar (arithmetic op integers decimals a b) := by
  unfold arithmetic
  cases a <;> cases b <;> first | exact .pure trivial | exact .fail (Tolerates.typeError _ rfl)

theorem quiet_plus (a b : Value) : Quiet E Scalar (plus a b) := by
  unfold plus
  split
  · exact (quiet_display _).bind fun _ _ => .pure trivial
  · exact (quiet_display _).bind fun _ _ => .pure trivial
  · exact quiet_arithmetic _ _ _ _ _

theorem quiet_divide (a b : Value) : Quiet E Scalar (divide a b) := by
  unfold divide
  split
  · split
    · exact .fail (Mild.divideByZero _ rfl)
    · exact .pure trivial
  · split
    · exact .fail (Mild.divideByZero _ rfl)
    · exact .pure trivial
  · exact .fail (Tolerates.typeError _ rfl)

theorem quiet_ordering (op : Operator) (answer : Option Bool) (a b : Value) :
    Quiet E Scalar (ordering op answer a b) := by
  cases answer
  · exact .fail (Tolerates.typeError _ rfl)
  · exact .pure trivial

theorem quiet_rangeBound (v : Value) : Quiet E (fun _ => True) (Native.rangeBound v) := by
  cases v <;> first | exact .pure trivial | exact .fail (Tolerates.typeError _ rfl)

/-- A native function has no closures to give back but those that it is given. -/
theorem quiet_native (f : Native) (args : List Value)
    (h : (∀ k, f.arity? = some k → args.length = k) ∨ LenientArity E) :
    Quiet E (fun v => ∀ c ∈ v.closures, c ∈ Value.closuresAll args) (f.call args) := by
  have hplain {v : Value} (hv : Plain v) : ∀ c ∈ v.closures, c ∈ Value.closuresAll args := by
    rw [hv]
    exact fun _ hc => nomatch hc
  have harity {k : Nat} (hk : f.arity? = some k) : args.length = k ∨ LenientArity E :=
    h.imp_left fun h => h k hk
  cases f with
  | debug =>
    apply quiet_unary _ (harity rfl)
    intro v _ m
    exact ⟨hplain rfl, rfl⟩
  | print =>
    exact quiet_unary _ (harity rfl) fun v _ => (quiet_display v).bind fun text _ =>
      (quiet_writeLine text).bind fun _ _ => .pure (hplain rfl)
  | log =>
    refine quiet_unary _ (harity rfl) fun v hv => (quiet_display v).bind fun text _ =>
      (quiet_writeLine _).bind fun _ _ => .pure ?_
    simp [hv, Value.closuresAll]
  | list | function => exact .pure fun c hc => hc
  | range =>
    refine quiet_binaryNative _ (harity rfl) fun v w _ => (quiet_rangeBound v).bind fun first _ =>
      (quiet_rangeBound w).bind fun last _ => .pure (hplain ?_)
    apply List.eq_nil_iff_forall_not_mem.2
    intro c hc
    obtain ⟨v, hv, hc⟩ := Value.mem_closuresAll.1 hc
    obtain ⟨k, -, rfl⟩ := List.mem_map.1 hv
    cases hc
  | functionAny | functionString =>
    refine quiet_unary _ (harity rfl) fun v hv => .pure ?_
    simp [hv, Value.closuresAll]
  | method =>
    refine .pure fun c hc => ?_
    obtain ⟨v, hv, hc⟩ := Value.mem_closuresAll.1 hc
    exact Value.mem_closuresAll.2 ⟨v, List.mem_of_mem_tail hv, hc⟩
  | methodAny | methodString =>
    refine quiet_binaryNative _ (harity rfl) fun v w hvw => .pure ?_
    simp +contextual [hvw, Value.closuresAll]

end Evaluation

end ObjectLang
