import ObjectLang.Proofs.Evaluation.Frame
import ObjectLang.Proofs.Scope.Visibility
import ObjectLang.Proofs.Shift.Values

/-!
Two runs of one program whose scopes have other numbers. Started from machines that go together, they
stay together step by step: they write and report the same, and end with values that go together or
with one fault.
-/

namespace ObjectLang

/-- The machines that two runs start from. -/
structure TwoRuns (N : Shift) where
  left : Machine
  right : Machine

/-- Machines of the two runs: their scopes go together, and they have written and reported the same
since the start. -/
structure TwoRuns.Meet {N : Shift} (T : TwoRuns N) (m m' : Machine) : Prop where
  scopes : m.scopes.Moved N m'.scopes
  output : ∃ lines, m.output = T.left.output ++ lines ∧ m'.output = T.right.output ++ lines
  trace : ∃ events, m.trace = T.left.trace ++ events ∧ m'.trace = T.right.trace ++ events

/-- A completion of the second run. -/
inductive Completion.Moved (N : Shift) : Completion → Completion → Prop
  | normal {v w : Value} (h : v.Moved N w) : Moved N (.normal v) (.normal w)
  | returning {v w : Value} (h : v.Moved N w) : Moved N (.returning v) (.returning w)

namespace Evaluation

open Forest Bindings

variable {α β γ δ : Type} {N : Shift} {T : TwoRuns N} {Q : α → β → Prop} {Q' : γ → δ → Prop}
  {x : EvalM α} {y : EvalM β} {f : α → EvalM γ} {g : β → EvalM δ}

/-- Two runs end alike: with results in `Q`, or with one fault. -/
inductive EndAlike (T : TwoRuns N) (Q : α → β → Prop) :
    EStateM.Result Fault Machine α → EStateM.Result Fault Machine β → Prop
  | ok {a : α} {b : β} {m m' : Machine} (value : Q a b) (machine : T.Meet m m') :
    EndAlike T Q (.ok a m) (.ok b m')
  | error (e : Fault) {m m' : Machine} (machine : T.Meet m m') :
    EndAlike T Q (.error e m) (.error e m')

/-- From machines that go together the two runs end alike. -/
def Mirrors (T : TwoRuns N) (Q : α → β → Prop) (x : EvalM α) (y : EvalM β) : Prop :=
  ∀ m m', T.Meet m m' → EndAlike T Q (x m) (y m')

theorem Mirrors.pure {a : α} {b : β} (h : Q a b) : Mirrors T Q (pure a) (pure b) :=
  fun _ _ hm => .ok h hm

theorem Mirrors.throw (e : Fault) : Mirrors T Q (throw e) (throw e) := fun _ _ hm => .error e hm

theorem Mirrors.fail (e : EvalError) : Mirrors T Q (fail e) (fail e) := .throw _

theorem Mirrors.bind (hx : Mirrors T Q x y) (hf : ∀ a b, Q a b → Mirrors T Q' (f a) (g b)) :
    Mirrors T Q' (x >>= f) (y >>= g) := by
  intro m m' hm
  have hend := hx m m' hm
  rw [bind_apply, bind_apply]
  generalize x m = r, y m' = r' at hend
  cases hend with
  | ok hab hm => exact hf _ _ hab _ _ hm
  | error e hm => exact .error e hm

section Steps

variable {s : ScopeId} {name : String} {v v' w w' : Value}

theorem mirrors_report (event : Event) :
    Mirrors T (fun _ _ => True) (report event) (report event) := by
  rintro m m' ⟨hscopes, houtput, events, htrace, htrace'⟩
  refine .ok trivial ⟨hscopes, houtput, events.push event, ?_, ?_⟩
  · exact (congrArg (·.push event) htrace).trans Array.push_append
  · exact (congrArg (·.push event) htrace').trans Array.push_append

theorem mirrors_writeLine (line : String) :
    Mirrors T (fun _ _ => True) (writeLine line) (writeLine line) := by
  rintro m m' ⟨hscopes, ⟨lines, houtput, houtput'⟩, htrace⟩
  refine .ok trivial ⟨hscopes, ⟨lines.push line, ?_, ?_⟩, htrace⟩
  · exact (congrArg (·.push line) houtput).trans Array.push_append
  · exact (congrArg (·.push line) houtput').trans Array.push_append

/-- The second run gives its scope the number that goes with that of the first. -/
theorem mirrors_openChild {own own' : Bindings Value} (hown : Aligned (Value.Moved N) own own')
    (s : ScopeId) :
    Mirrors T (fun i j => j = N.move i) (openChild s own) (openChild (N.move s) own') := by
  intro m m' hm
  exact .ok hm.scopes.move_size.symm ⟨hm.scopes.addChild hown s, hm.output, hm.trace⟩

theorem mirrors_openRoot :
    Mirrors T (fun i j => N.base ≤ i ∧ j = N.move i) openRoot openRoot := by
  intro m m' hm
  exact .ok ⟨hm.scopes.base_le, hm.scopes.move_size.symm⟩
    ⟨hm.scopes.addRoot aligned_empty, hm.output, hm.trace⟩

section Names

variable (hname : name ∉ N.hidden)
include hname

theorem mirrors_lookup (s : ScopeId) :
    Mirrors T (Option.Rel (Value.Moved N)) (lookup s name) (lookup (N.move s) name) :=
  fun _ _ hm => .ok (hm.scopes.lookup hname s) hm

theorem mirrors_requireFresh (s : ScopeId) :
    Mirrors T (fun _ _ => True) (requireFresh s name) (requireFresh (N.move s) name) := by
  intro m m' hm
  rw [requireFresh_apply, requireFresh_apply, hm.scopes.containsOwn_eq (.inl hname)]
  split
  · exact .error _ hm
  · exact .ok trivial hm

theorem mirrors_requireBound (s : ScopeId) :
    Mirrors T (fun _ _ => True) (requireBound s name) (requireBound (N.move s) name) := by
  intro m m' hm
  rw [requireBound_apply, requireBound_apply, hm.scopes.contains_eq hname]
  split
  · exact .ok trivial hm
  · exact .error _ hm

theorem mirrors_define (s : ScopeId) (hv : v.Moved N v') :
    Mirrors T (fun _ _ => True) (define s name v) (define (N.move s) name v') := by
  intro m m' hm
  rw [define_apply, define_apply, hm.scopes.containsOwn_eq (.inl hname)]
  split
  · exact .error _ hm
  · exact .ok trivial ⟨hm.scopes.insert (.inl hname) hv, hm.output, hm.trace⟩

theorem mirrors_assign (s : ScopeId) (hv : v.Moved N v') :
    Mirrors T (fun _ _ => True) (assign s name v) (assign (N.move s) name v') := by
  intro m m' hm
  rw [assign_apply, assign_apply, hm.scopes.owner?_eq hname]
  cases m.scopes.owner? s name with
  | none => exact .error _ hm
  | some t => exact .ok trivial ⟨hm.scopes.insert (.inl hname) hv, hm.output, hm.trace⟩

end Names

/-- A member may have any name, since the members of objects go together at all names. -/
theorem mirrors_member (hs : N.base ≤ s) (name : String) :
    Mirrors T (Value.Moved N) (member s name) (member (N.move s) name) := by
  intro m m' hm
  have hfound : Option.Rel (Value.Moved N) (m.scopes.lookupOwn s name)
      (m'.scopes.lookupOwn (N.move s) name) := hm.scopes.lookupOwn (.inr hs)
  rw [member_apply, member_apply]
  generalize m.scopes.lookupOwn s name = o, m'.scopes.lookupOwn (N.move s) name = o' at hfound
  cases hfound with
  | none => exact .error _ hm
  | some hv => exact .ok hv hm

/-- A member that is there is set where it is. -/
theorem endAlike_assign {m m' : Machine} (hm : T.Meet m m') (hs : N.base ≤ s)
    (hmember : name ∈ m.scopes.names s) (hv : v.Moved N v') :
    EndAlike T (fun _ _ => True) (assign s name v m) (assign (N.move s) name v' m') := by
  have hmember' : name ∈ m'.scopes.names (N.move s) := by
    rw [← containsOwn_iff, ← hm.scopes.containsOwn_eq (.inr hs), containsOwn_iff]
    exact hmember
  rw [assign_apply, assign_apply, owner_of_mem_names hmember, owner_of_mem_names hmember']
  exact .ok trivial ⟨hm.scopes.insert (.inr hs) hv, hm.output, hm.trace⟩

/-- A member is set that was there before the value was found, and so still is. -/
theorem mirrors_setMember {x y : EvalM Value} (hs : N.base ≤ s) (name : String)
    (hx : Mirrors T (Value.Moved N) x y) (hnames : Keeps SameNames x) :
    Mirrors T (Completion.Moved N)
      (do requireMember s name; let v ← x; assign s name v; return .normal v)
      (do requireMember (N.move s) name; let v ← y; assign (N.move s) name v; return .normal v) := by
  intro m m' hm
  by_cases hmember : name ∈ m.scopes.names s
  · have hset : EndAlike T (Completion.Moved N)
        ((x >>= fun v => assign s name v >>= fun _ => pure (.normal v)) m)
        ((y >>= fun v => assign (N.move s) name v >>= fun _ => pure (.normal v)) m') := by
      have hend := hx m m' hm
      rw [bind_apply, bind_apply]
      cases hrun : x m with
      | error e m₁ =>
        rw [hrun] at hend
        generalize y m' = r at hend
        cases hend with
        | error _ hm₁ => exact .error e hm₁
      | ok v m₁ =>
        rw [hrun] at hend
        have hkept : NamesKept m.scopes m₁.scopes := hnames.of_ok hrun
        have hthere : name ∈ m₁.scopes.names s := by
          rwa [Forest.names, hkept.view_eq s (lt_size_of_mem_names hmember)]
        generalize y m' = r at hend
        cases hend with
        | @ok _ v' _ m₁' hv hm₁ =>
          have hend := endAlike_assign hm₁ hs hthere hv
          dsimp only
          rw [bind_apply, bind_apply]
          generalize assign s name v m₁ = r, assign (N.move s) name v' m₁' = r' at hend
          cases hend with
          | ok _ hm₂ => exact .ok (.normal hv) hm₂
          | error e hm₂ => exact .error e hm₂
    have hmember' := containsOwn_iff.2 hmember
    rw [bind_apply, bind_apply, requireMember_apply, requireMember_apply,
      ← hm.scopes.containsOwn_eq (.inr hs), hmember']
    exact hset
  · have hmember' : m.scopes.containsOwn s name = false := by
      rwa [← Bool.not_eq_true, containsOwn_iff]
    rw [bind_apply, bind_apply, requireMember_apply, requireMember_apply,
      ← hm.scopes.containsOwn_eq (.inr hs), hmember']
    exact .error _ hm

theorem mirrors_display (hv : v.Moved N v') : Mirrors T (· = ·) (display v) (display v') := by
  intro m m' hm
  rw [display_apply, display_apply, Value.display?_moved hm.scopes hv]
  split
  · exact .ok rfl hm
  · exact .error _ hm

theorem mirrors_equal (hv : v.Moved N v') (hw : w.Moved N w') :
    Mirrors T (· = ·) (equal v w) (equal v' w') := by
  intro m m' hm
  rw [equal_apply, equal_apply, Value.equal?_moved hm.scopes hv hw]
  split
  · exact .ok rfl hm
  · exact .error _ hm

theorem mirrors_requireObject (hv : v.Moved N v') :
    Mirrors T (fun i j => N.base ≤ i ∧ j = N.move i) (requireObject v) (requireObject v') := by
  cases hv <;> first | exact .fail _ | exact .pure ⟨‹_›, rfl⟩

theorem mirrors_requireFunction (name : String) (hv : v.Moved N v') :
    Mirrors T (Callable.Moved N) (requireFunction name v) (requireFunction name v') := by
  cases hv <;> first | exact .fail _ | exact .pure ‹_›

theorem mirrors_requireList (hv : v.Moved N v') :
    Mirrors T (List.Forall₂ (Value.Moved N)) (requireList v) (requireList v') := by
  cases hv <;> first | exact .fail _ | exact .pure ‹_›

theorem mirrors_requireCondition (hv : v.Moved N v') :
    Mirrors T (· = ·) (requireCondition v) (requireCondition v') := by
  cases hv <;> first | exact .fail _ | exact .pure rfl

theorem mirrors_requireOperand (op : Operator) (hv : v.Moved N v') :
    Mirrors T (· = ·) (requireOperand op v) (requireOperand op v') := by
  cases hv <;> first | exact .fail _ | exact .pure rfl

theorem mirrors_arithmetic (op : Operator) (integers : Int → Int → Int)
    (decimals : Decimal → Decimal → Decimal) (hv : v.Moved N v') (hw : w.Moved N w') :
    Mirrors T (Value.Moved N) (arithmetic op integers decimals v w)
      (arithmetic op integers decimals v' w') := by
  cases hv <;> cases hw <;>
    first | exact .fail _ | exact .pure (.integer _) | exact .pure (.decimal _)

theorem mirrors_plus (hv : v.Moved N v') (hw : w.Moved N w') :
    Mirrors T (Value.Moved N) (plus v w) (plus v' w') := by
  have hleft (s : String) : Mirrors T (Value.Moved N) (plus (.string s) w) (plus (.string s) w') := by
    apply (mirrors_display hw).bind
    rintro text _ rfl
    exact .pure (.string _)
  have hright (t : String) : Mirrors T (Value.Moved N) (do return .string ((← display v) ++ t))
      (do return .string ((← display v') ++ t)) := by
    apply (mirrors_display hv).bind
    rintro text _ rfl
    exact .pure (.string _)
  cases hv <;> cases hw <;>
    first
    | exact hleft _
    | exact hright _
    | exact .fail _
    | exact .pure (.integer _)
    | exact .pure (.decimal _)

theorem mirrors_divide (hv : v.Moved N v') (hw : w.Moved N w') :
    Mirrors T (Value.Moved N) (divide v w) (divide v' w') := by
  have hif {p : Prop} [Decidable p] {u : Value} (hu : u.Moved N u) :
      Mirrors T (Value.Moved N) (if p then fail .divisionByZero else pure u)
        (if p then fail .divisionByZero else pure u) := by
    split
    · exact .fail _
    · exact .pure hu
  cases hv <;> cases hw <;>
    first | exact .fail _ | exact hif (.integer _) | exact hif (.decimal _)

theorem mirrors_ordering (op : Operator) (answer : Option Bool) (hv : v.Moved N v')
    (hw : w.Moved N w') :
    Mirrors T (Value.Moved N) (ordering op answer v w) (ordering op answer v' w') := by
  cases answer with
  | some answer => exact .pure (.boolean _)
  | none =>
    rw [ordering, ordering, hv.kind_eq, hw.kind_eq]
    exact .fail _

end Steps

end Evaluation

end ObjectLang
