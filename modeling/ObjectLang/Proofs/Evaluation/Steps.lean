import ObjectLang.Evaluation.Call
import ObjectLang.Evaluation.Operator
import ObjectLang.Proofs.Steps

/-!
What the steps of evaluation do to the machine. Most of them only read the scopes; a few write a
line or report an event; only opening a scope, defining a name and assigning to one change the
scopes.
-/

namespace ObjectLang

/-- The value that a statement ends with, in whichever way. -/
def Completion.value : Completion → Value
  | .normal v | .returning v => v

/-- The program itself is at fault, and neither the depth nor a value without an end. -/
def Fault.IsError : Fault → Prop
  | .error _ => True
  | .tooDeep | .endless => False

theorem Fault.IsError.ne_endless {e : Fault} (h : e.IsError) : e ≠ .endless := by
  rintro rfl
  exact h

namespace Evaluation

variable {s : ScopeId} {name : String} {v : Value} {m : Machine} {own : Bindings Value}

theorem lookup_apply : lookup s name m = .ok (m.scopes.lookup s name) m := rfl

theorem openChild_apply :
    openChild s own m = .ok m.scopes.size { m with scopes := m.scopes.addChild s own } := rfl

theorem openRoot_apply :
    openRoot m = .ok m.scopes.size { m with scopes := m.scopes.addRoot ∅ } := rfl

theorem requireFresh_apply : requireFresh s name m =
    if m.scopes.containsOwn s name then .error (.error (.alreadyDefined name)) m else .ok () m := by
  show (if m.scopes.containsOwn s name then _ else _ : EvalM Unit) m = _
  split <;> rfl

theorem define_apply : define s name v m =
    if m.scopes.containsOwn s name then .error (.error (.scope (.alreadyDefined name))) m
    else .ok () { m with scopes := m.scopes.insert s name v } := by
  show (if m.scopes.containsOwn s name then _ else _ : EvalM Unit) m = _
  split <;> rfl

theorem assign_apply : assign s name v m =
    match m.scopes.owner? s name with
    | some t => .ok () { m with scopes := m.scopes.insert t name v }
    | none => .error (.error (.scope (.notDefined name))) m := by
  show (match m.scopes.owner? s name with | some _ => _ | none => _ : EvalM Unit) m = _
  cases m.scopes.owner? s name <;> rfl

theorem requireBound_apply : requireBound s name m =
    if m.scopes.contains s name then .ok () m else .error (.error (.undefinedName name)) m := by
  show (if m.scopes.contains s name then _ else _ : EvalM Unit) m = _
  split <;> rfl

theorem requireMember_apply : requireMember s name m =
    if m.scopes.containsOwn s name then .ok () m
    else .error (.error (.undefinedMember name)) m := by
  show (if m.scopes.containsOwn s name then _ else _ : EvalM Unit) m = _
  split <;> rfl

theorem member_apply : member s name m =
    match m.scopes.lookupOwn s name with
    | some v => .ok v m
    | none => .error (.error (.undefinedMember name)) m := by
  show (match m.scopes.lookupOwn s name with | some _ => _ | none => _ : EvalM Value) m = _
  cases m.scopes.lookupOwn s name <;> rfl

theorem display_apply : display v m =
    match v.display? m.scopes with
    | some text => .ok text m
    | none => .error .endless m := by
  show (match v.display? m.scopes with | some _ => _ | none => _ : EvalM String) m = _
  cases v.display? m.scopes <;> rfl

theorem equal_apply {w : Value} : equal v w m =
    match v.equal? m.scopes w with
    | some answer => .ok answer m
    | none => .error .endless m := by
  show (match v.equal? m.scopes w with | some _ => _ | none => _ : EvalM Bool) m = _
  cases v.equal? m.scopes w <;> rfl

/-- Two machines have the same scopes; they may differ in what they have written and reported. -/
def SameScopes (m m' : Machine) : Prop := m'.scopes = m.scopes

instance : IsPreorder Machine SameScopes where
  refl _ := rfl
  trans _ _ _ h h' := Eq.trans h' h

theorem keeps_report (event : Event) : Keeps SameScopes (report event) := fun _ => rfl

theorem keeps_writeLine (line : String) : Keeps SameScopes (writeLine line) := fun _ => rfl

section Reading

/-! Steps that only read leave the machine as it is, so they keep up whatever is kept up by doing
nothing. -/

variable {R : Machine → Machine → Prop} [IsPreorder Machine R]

theorem keeps_fail {α : Type} (e : EvalError) : Keeps R (fail e : EvalM α) := .throw _

theorem keeps_lookup (s : ScopeId) (name : String) : Keeps R (lookup s name) :=
  fun m => Std.Refl.refl m

theorem keeps_requireFresh (s : ScopeId) (name : String) : Keeps R (requireFresh s name) := by
  intro m
  rw [requireFresh_apply]
  split <;> exact Std.Refl.refl m

theorem keeps_requireBound (s : ScopeId) (name : String) : Keeps R (requireBound s name) := by
  intro m
  rw [requireBound_apply]
  split <;> exact Std.Refl.refl m

theorem keeps_requireMember (s : ScopeId) (name : String) :
    Keeps R (requireMember s name) := by
  intro m
  rw [requireMember_apply]
  split <;> exact Std.Refl.refl m

theorem keeps_member (s : ScopeId) (name : String) : Keeps R (member s name) := by
  intro m
  rw [member_apply]
  split <;> exact Std.Refl.refl m

theorem keeps_display (v : Value) : Keeps R (display v) := by
  intro m
  rw [display_apply]
  split <;> exact Std.Refl.refl m

theorem keeps_equal (v w : Value) : Keeps R (equal v w) := by
  intro m
  rw [equal_apply]
  split <;> exact Std.Refl.refl m

theorem keeps_requireObject (v : Value) : Keeps R (requireObject v) := by
  cases v <;> first | exact .pure _ | exact keeps_fail _

theorem keeps_requireFunction (name : String) (v : Value) :
    Keeps R (requireFunction name v) := by
  cases v <;> first | exact .pure _ | exact keeps_fail _

theorem keeps_requireList (v : Value) : Keeps R (requireList v) := by
  cases v <;> first | exact .pure _ | exact keeps_fail _

theorem keeps_requireCondition (v : Value) : Keeps R (requireCondition v) := by
  cases v <;> first | exact .pure _ | exact keeps_fail _

theorem keeps_requireOperand (op : Operator) (v : Value) :
    Keeps R (requireOperand op v) := by
  cases v <;> first | exact .pure _ | exact keeps_fail _

theorem keeps_arithmetic (op : Operator) (integers : Int → Int → Int)
    (decimals : Decimal → Decimal → Decimal) (a b : Value) :
    Keeps R (arithmetic op integers decimals a b) := by
  unfold arithmetic
  split
  · exact .pure _
  · exact keeps_fail _

theorem keeps_plus (a b : Value) : Keeps R (plus a b) := by
  unfold plus
  split
  · exact (keeps_display _).bind fun _ => .pure _
  · exact (keeps_display _).bind fun _ => .pure _
  · exact keeps_arithmetic _ _ _ _ _

theorem keeps_divide (a b : Value) : Keeps R (divide a b) := by
  unfold divide
  split
  · split
    · exact keeps_fail _
    · exact .pure _
  · split
    · exact keeps_fail _
    · exact .pure _
  · exact keeps_fail _

theorem keeps_ordering (op : Operator) (answer : Option Bool) (a b : Value) :
    Keeps R (ordering op answer a b) := by
  cases answer
  · exact keeps_fail _
  · exact .pure _

theorem keeps_unary (f : Native) {run : Value → EvalM Value}
    (hr : ∀ v, Keeps R (run v)) (args : List Value) :
    Keeps R (f.unary run args) := by
  unfold Native.unary
  split
  · exact hr _
  · exact keeps_fail _

theorem keeps_binaryNative (f : Native) {run : Value → Value → EvalM Value}
    (hr : ∀ v w, Keeps R (run v w)) (args : List Value) :
    Keeps R (f.binary run args) := by
  unfold Native.binary
  split
  · exact hr _ _
  · exact keeps_fail _

theorem keeps_rangeBound (v : Value) : Keeps R (Native.rangeBound v) := by
  cases v <;> first | exact .pure _ | exact keeps_fail _

end Reading

/-- Native functions leave all scopes alone: they cannot call back into the program. -/
theorem keeps_native (f : Native) (args : List Value) : Keeps SameScopes (f.call args) := by
  cases f with
  | debug =>
    refine keeps_unary _ (fun v => ?_) args
    intro m
    rfl
  | print =>
    exact keeps_unary _ (fun v => (keeps_display v).bind fun text =>
      (keeps_writeLine text).bind fun _ => .pure _) args
  | log =>
    exact keeps_unary _ (fun v => (keeps_display v).bind fun text =>
      (keeps_writeLine _).bind fun _ => .pure _) args
  | list | function | method => exact .pure _
  | range =>
    exact keeps_binaryNative _ (fun v w => (keeps_rangeBound v).bind fun first =>
      (keeps_rangeBound w).bind fun last => .pure _) args
  | functionAny | functionString => exact keeps_unary _ (fun v => .pure v) args
  | methodAny | methodString => exact keeps_binaryNative _ (fun _ v => .pure v) args

end Evaluation

end ObjectLang
