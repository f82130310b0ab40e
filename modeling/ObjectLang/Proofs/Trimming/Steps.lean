import ObjectLang.Evaluation.Rules
import ObjectLang.Proofs.Evaluation.Steps
import ObjectLang.Proofs.Trimming.Values

/-!
Two runs of one program whose functions look the same once they are trimmed. A step that does not
look into functions goes with trimming in either order (`Commutes`), so it takes two such runs along
together. What is nested may need more depth in one of the runs than in the other (`Follows`).
-/

namespace ObjectLang

/-- A machine with trimmed functions. -/
def Machine.trim (m : Machine) : Machine := { m with scopes := m.scopes.trim }

def Completion.trim : Completion → Completion
  | .normal v => .normal v.trim
  | .returning v => .returning v.trim

/-- Completions that are trimmed alike are of one kind. -/
theorem Completion.of_trim {c c' : Completion} (h : c.trim = c'.trim) :
    (∃ v v', c = .normal v ∧ c' = .normal v' ∧ v.trim = v'.trim) ∨
      ∃ v v', c = .returning v ∧ c' = .returning v' ∧ v.trim = v'.trim := by
  cases c with
  | normal v =>
    cases c' with
    | normal v' => exact .inl ⟨v, v', rfl, rfl, Completion.normal.inj h⟩
    | returning v' => cases h
  | returning v =>
    cases c' with
    | normal v' => cases h
    | returning v' => exact .inr ⟨v, v', rfl, rfl, Completion.returning.inj h⟩

namespace Evaluation

variable {α β γ δ : Type}

/-- The end of a run, with an image of its value and trimmed functions in its machine. -/
def trimResult (img : α → β) : EStateM.Result Fault Machine α → EStateM.Result Fault Machine β
  | .ok a m => .ok (img a) m.trim
  | .error e m => .error e m.trim

/-- What a step does after trimming is the trimmed form of what it does before. -/
def Commutes (img : α → β) (x : EvalM α) (y : EvalM β) : Prop :=
  ∀ m, trimResult img (x m) = y m.trim

/-- A run that does not end for lack of depth is followed, from a machine that is trimmed alike, by a
run that ends alike when it is given enough depth. -/
def Follows (img : α → β) (x : EvalM α) (x' : Nat → EvalM α) : Prop :=
  ∀ m m' : Machine, m.trim = m'.trim → (∀ m₁, x m ≠ .error .tooDeep m₁) →
    ∃ r, trimResult img r = trimResult img (x m) ∧ ∃ least, ∀ depth ≥ least, x' depth m' = r

variable {img : α → β} {img' : γ → δ} {x : EvalM α} {y : EvalM β} {x' : Nat → EvalM α}
  {f : α → EvalM γ} {g : β → EvalM δ} {f' : Nat → α → EvalM γ}

theorem Commutes.pure {a : α} {b : β} (h : img a = b) :
    Commutes img (pure a : EvalM α) (pure b) := by
  subst h
  exact fun _ => rfl

theorem Commutes.fail (e : EvalError) : Commutes img (fail e : EvalM α) (fail e) := fun _ => rfl

theorem Commutes.bind (hx : Commutes img x y) (hf : ∀ a, Commutes img' (f a) (g (img a))) :
    Commutes img' (x >>= f) (y >>= g) := by
  intro m
  rw [bind_apply, bind_apply, ← hx m]
  cases x m with
  | ok a m' => exact hf a m'
  | error e m' => rfl

theorem Follows.of_commutes {z : EvalM α} (hx : Commutes img x y) (hz : Commutes img z y) :
    Follows img x fun _ => z := by
  intro m m' hm _
  exact ⟨z m', by rw [hx m, hz m', hm], 0, fun _ _ => rfl⟩

theorem Follows.pure {a b : α} (h : img a = img b) :
    Follows img (Pure.pure a : EvalM α) fun _ => Pure.pure b :=
  .of_commutes (.pure h) (.pure rfl)

theorem Follows.fail (e : EvalError) : Follows img (fail e : EvalM α) fun _ => fail e :=
  .of_commutes (.fail e) (.fail e)

theorem Follows.tooDeep : Follows img (throw .tooDeep : EvalM α) x' :=
  fun m _ _ h => (h m rfl).elim

theorem Follows.bind (hx : Follows img x x')
    (hf : ∀ a b, img a = img b → Follows img' (f a) fun depth => f' depth b) :
    Follows img' (x >>= f) fun depth => x' depth >>= f' depth := by
  intro m m' hm hdeep
  simp only [bind_apply] at hdeep ⊢
  have hx := hx m m' hm
  cases hxm : x m with
  | ok a m₁ =>
    rw [hxm] at hx hdeep
    obtain ⟨r, hr, least, hrun⟩ := hx nofun
    cases r with
    | ok b m₁' =>
      have ⟨hb, hm₁⟩ : img b = img a ∧ m₁'.trim = m₁.trim := by simpa [trimResult] using hr
      obtain ⟨r, hr, least', hrun'⟩ := hf a b hb.symm m₁ m₁' hm₁.symm hdeep
      refine ⟨r, hr, max least least', fun depth hdepth => ?_⟩
      simp only [hrun depth (by omega), hrun' depth (by omega)]
    | error e m₁' => simp [trimResult] at hr
  | error e m₁ =>
    rw [hxm] at hx hdeep
    obtain ⟨r, hr, least, hrun⟩ := hx fun m₂ he => hdeep m₂ (by cases he; rfl)
    cases r with
    | ok b m₁' => simp [trimResult] at hr
    | error e' m₁' =>
      obtain ⟨rfl, hm₁⟩ : e' = e ∧ m₁'.trim = m₁.trim := by simpa [trimResult] using hr
      refine ⟨.error e' m₁', by simp [trimResult, hm₁], least, fun depth hdepth => ?_⟩
      simp only [hrun depth hdepth]

/-- The last step of a run needs a deeper run than the steps before it. -/
theorem Follows.deepen (h : Follows img x fun depth => x' (depth + 1)) : Follows img x x' := by
  intro m m' hm hdeep
  obtain ⟨r, hr, least, hrun⟩ := h m m' hm hdeep
  refine ⟨r, hr, least + 1, fun depth hdepth => ?_⟩
  obtain ⟨depth, rfl⟩ : ∃ n, depth = n + 1 := ⟨depth - 1, by omega⟩
  exact hrun depth (by omega)

section Steps

variable (s : ScopeId) (name : String)

theorem commutes_report (event : Event) : Commutes id (report event) (report event) := fun _ => rfl

theorem commutes_writeLine (line : String) : Commutes id (writeLine line) (writeLine line) :=
  fun _ => rfl

theorem commutes_openChild (own : Bindings Value) :
    Commutes id (openChild s own) (openChild s (own.map Value.trim)) := by
  intro m
  simp [openChild_apply, trimResult, Machine.trim]

theorem commutes_openRoot : Commutes id openRoot openRoot := by
  intro m
  simp [openRoot_apply, trimResult, Machine.trim]

theorem commutes_lookup : Commutes (Option.map Value.trim) (lookup s name) (lookup s name) := by
  intro m
  simp [lookup_apply, trimResult, Machine.trim]

theorem commutes_requireFresh : Commutes id (requireFresh s name) (requireFresh s name) := by
  intro m
  rw [requireFresh_apply, requireFresh_apply]
  simp only [Machine.trim, Forest.containsOwn_map]
  split <;> rfl

theorem commutes_requireBound : Commutes id (requireBound s name) (requireBound s name) := by
  intro m
  rw [requireBound_apply, requireBound_apply]
  simp only [Machine.trim, Forest.contains_map]
  split <;> rfl

theorem commutes_requireMember : Commutes id (requireMember s name) (requireMember s name) := by
  intro m
  rw [requireMember_apply, requireMember_apply]
  simp only [Machine.trim, Forest.containsOwn_map]
  split <;> rfl

theorem commutes_member : Commutes Value.trim (member s name) (member s name) := by
  intro m
  rw [member_apply, member_apply]
  simp only [Machine.trim, Forest.lookupOwn_map]
  cases m.scopes.lookupOwn s name <;> rfl

theorem commutes_define (v : Value) : Commutes id (define s name v) (define s name v.trim) := by
  intro m
  rw [define_apply, define_apply]
  simp only [Machine.trim, Forest.containsOwn_map]
  split
  · rfl
  · simp [trimResult, Machine.trim]

theorem commutes_assign (v : Value) : Commutes id (assign s name v) (assign s name v.trim) := by
  intro m
  rw [assign_apply, assign_apply]
  simp only [Machine.trim, Forest.owner?_map]
  cases m.scopes.owner? s name with
  | none => rfl
  | some t => simp [trimResult, Machine.trim]

theorem commutes_display (v : Value) : Commutes id (display v) (display v.trim) := by
  intro m
  rw [display_apply, display_apply]
  simp only [Machine.trim, Value.display?_trim]
  cases v.display? m.scopes <;> rfl

theorem commutes_equal (v w : Value) : Commutes id (equal v w) (equal v.trim w.trim) := by
  intro m
  rw [equal_apply, equal_apply]
  simp only [Machine.trim, Value.equal?_trim]
  cases v.equal? m.scopes w <;> rfl

theorem commutes_requireObject (v : Value) :
    Commutes id (requireObject v) (requireObject v.trim) := by
  cases v <;> first | exact .pure rfl | exact .fail _

theorem commutes_requireFunction (v : Value) :
    Commutes Callable.trim (requireFunction name v) (requireFunction name v.trim) := by
  cases v <;> first | exact .pure rfl | exact .fail _

theorem commutes_requireList (v : Value) :
    Commutes (List.map Value.trim) (requireList v) (requireList v.trim) := by
  cases v <;> first | exact .pure (Value.trimAll_eq_map _).symm | exact .fail _

theorem commutes_requireCondition (v : Value) :
    Commutes id (requireCondition v) (requireCondition v.trim) := by
  cases v <;> first | exact .pure rfl | exact .fail _

theorem commutes_requireOperand (op : Operator) (v : Value) :
    Commutes id (requireOperand op v) (requireOperand op v.trim) := by
  cases v <;> first | exact .pure rfl | exact .fail _

theorem commutes_arithmetic (op : Operator) (integers : Int → Int → Int)
    (decimals : Decimal → Decimal → Decimal) (a b : Value) :
    Commutes Value.trim (arithmetic op integers decimals a b)
      (arithmetic op integers decimals a.trim b.trim) := by
  cases a <;> cases b <;> first | exact .pure rfl | exact .fail _

theorem commutes_plus (a b : Value) : Commutes Value.trim (plus a b) (plus a.trim b.trim) := by
  have hleft (s : String) : Commutes Value.trim (plus (.string s) b) (plus (.string s) b.trim) :=
    (commutes_display b).bind fun _ => .pure rfl
  have hright (t : String) :
      Commutes Value.trim (do return .string ((← display a) ++ t))
        (do return .string ((← display a.trim) ++ t)) :=
    (commutes_display a).bind fun _ => .pure rfl
  cases a <;> cases b <;>
    first
    | exact hleft _
    | exact hright _
    | exact .pure rfl
    | exact .fail _

theorem commutes_divide (a b : Value) :
    Commutes Value.trim (divide a b) (divide a.trim b.trim) := by
  have hif {p : Prop} [Decidable p] (v : Value) (hv : v.trim = v) :
      Commutes Value.trim (if p then fail .divisionByZero else Pure.pure v)
        (if p then fail .divisionByZero else Pure.pure v) := by
    split
    · exact .fail _
    · exact .pure hv
  cases a <;> cases b <;> first | exact hif _ rfl | exact .fail _

theorem commutes_ordering (op : Operator) (answer : Option Bool) (a b : Value) :
    Commutes Value.trim (ordering op answer a b) (ordering op answer a.trim b.trim) := by
  cases answer with
  | some answer => exact .pure rfl
  | none =>
    simp only [ordering, Value.kind_trim]
    exact .fail _

end Steps

end Evaluation

end ObjectLang
