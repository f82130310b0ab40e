import ObjectLang.Proofs.Finite.Steps
import ObjectLang.Proofs.Resolution.Operators

/-!
Runs that make no functions. Names are bound and rebound in the scopes that are at work, which are the
scope of the run, those around it and those of objects in the making. No value refers to any of these,
so the values that there are stay whole; and the only functions among them are the native ones.
-/

namespace ObjectLang

open Forest Evaluation

variable {live : List ScopeId} {Γ Δ Θ : ValueScopes} {s t : ScopeId} {name : String} {v w : Value}
  {vs : List Value} {own : Bindings Value}

namespace Forest

/-- From the one to the other, nothing changes in the scopes that are not at work. -/
structure Spares (live : List ScopeId) (Γ Δ : ValueScopes) : Prop where
  size_le : Γ.size ≤ Δ.size
  outer_eq : ∀ t < Γ.size, Δ.outer t = Γ.outer t
  own_eq : ∀ t < Γ.size, t ∉ live → Δ.own t = Γ.own t

theorem Spares.refl (live : List ScopeId) (Γ : ValueScopes) : Spares live Γ Γ :=
  ⟨Nat.le_refl _, fun _ _ => rfl, fun _ _ _ => rfl⟩

theorem Spares.trans (h : Spares live Γ Δ) (h' : Spares live Δ Θ) : Spares live Γ Θ where
  size_le := Nat.le_trans h.size_le h'.size_le
  outer_eq t ht :=
    (h'.outer_eq t (Nat.lt_of_lt_of_le ht h.size_le)).trans (h.outer_eq t ht)
  own_eq t ht hnot :=
    (h'.own_eq t (Nat.lt_of_lt_of_le ht h.size_le) hnot).trans (h.own_eq t ht hnot)

theorem spares_insert (ht : t ∈ live) : Spares live Γ (Γ.insert t name v) where
  size_le := by simp
  outer_eq u _ := outer_insert Γ u t name v
  own_eq u _ hnot := own_insert_of_ne name v fun h => hnot (h ▸ ht)

/-- What is done in a new scope is not seen from before. -/
theorem Spares.leave (hkept : BindingsKept Γ Δ) (h : Spares (Γ.size :: live) Δ Θ) :
    Spares live Γ Θ where
  size_le := Nat.le_trans hkept.size_le h.size_le
  outer_eq t ht :=
    (h.outer_eq t (Nat.lt_of_lt_of_le ht hkept.size_le)).trans (hkept.outer_eq t ht)
  own_eq t ht hnot := by
    have hother : t ∉ Γ.size :: live := by
      rw [List.mem_cons, not_or]
      exact ⟨Nat.ne_of_lt ht, hnot⟩
    exact (h.own_eq t (Nat.lt_of_lt_of_le ht hkept.size_le) hother).trans (hkept.own_eq ht)

end Forest

namespace Value

/-- The value is whole, and no closure is in it. -/
structure Simple (live : List ScopeId) (Γ : ValueScopes) (v : Value) : Prop where
  whole : v.Whole live Γ
  plain : Evaluation.Plain v

namespace Simple

theorem keep (h : v.Simple live Γ) (hspares : Spares live Γ Δ) : v.Simple live Δ :=
  ⟨h.whole.keep hspares.size_le hspares.own_eq fun _ _ => id, h.plain⟩

theorem enter (h : v.Simple live Γ) (hkept : BindingsKept Γ Δ) : v.Simple (Γ.size :: live) Δ :=
  ⟨h.whole.enter hkept, h.plain⟩

theorem leave (h : v.Simple (t :: live) Γ) : v.Simple live Γ := ⟨h.whole.leave, h.plain⟩

/-- A function that is simple is no closure. -/
theorem not_closure {f : Callable} (h : (Value.function f).Simple live Γ) (c : Closure) :
    f ≠ .closure c := by
  rintro rfl
  exact List.cons_ne_nil _ _ h.plain

theorem item (h : (Value.list vs).Simple live Γ) (hv : v ∈ vs) : v.Simple live Γ := by
  refine ⟨h.whole.inside hv, List.eq_nil_iff_forall_not_mem.2 fun c hc => ?_⟩
  have hmem : c ∈ closuresAll vs := mem_closuresAll.2 ⟨v, hv, hc⟩
  rw [show closuresAll vs = [] from h.plain] at hmem
  cases hmem

end Simple

theorem simple_of_scalar (h : Scalar v) : v.Simple live Γ := by
  refine ⟨whole_of_flat ?_, h.plain⟩
  cases v <;> trivial

theorem simple_nil : Value.nil.Simple live Γ := simple_of_scalar trivial

theorem simple_literal (l : Literal) : l.toValue.Simple live Γ :=
  ⟨whole_literal l, Literal.closures_toValue l⟩

theorem simple_noEntries : ∀ e ∈ (∅ : Bindings Value).entries, e.2.Simple live Γ :=
  fun _ he => nomatch he

end Value

namespace Forest

/-- A run that makes no functions is at work in `s` and around it, and what is bound to names is
simple. -/
structure Engaged (live : List ScopeId) (s : ScopeId) (Γ : ValueScopes) : Prop
    extends Working live s Γ where
  chain_mem : ∀ t ∈ Γ.chain s, t ∈ live
  plain : ∀ t name v, Γ.lookupOwn t name = some v → Evaluation.Plain v

namespace Engaged

theorem simple (h : Engaged live s Γ) (hv : Γ.lookupOwn t name = some v) : v.Simple live Γ :=
  ⟨h.whole t name v hv, h.plain t name v hv⟩

theorem lookup (h : Engaged live s Γ) (hv : Γ.lookup t name = some v) : v.Simple live Γ := by
  obtain ⟨o, -, hv⟩ := owner_of_lookup hv
  exact h.simple hv

theorem owner_mem (h : Engaged live s Γ) (ht : Γ.owner? s name = some t) : t ∈ live :=
  h.chain_mem t (List.mem_of_find?_eq_some ht)

theorem insert (h : Engaged live s Γ) (hv : v.Simple live Γ) (ht : t ∈ live) :
    Engaged live s (Γ.insert t name v) := by
  have hspares : Spares live Γ (Γ.insert t name v) := spares_insert ht
  have hsimple (u n w) (hw : (Γ.insert t name v).lookupOwn u n = some w) :
      w.Simple live (Γ.insert t name v) := by
    obtain hw | ⟨-, -, rfl⟩ := lookupOwn_insert hw
    · exact (h.simple hw).keep hspares
    · exact hv.keep hspares
  refine ⟨⟨h.mem, fun u hu => by simpa using h.lt u hu, fun u n w hw => (hsimple u n w hw).whole⟩,
    fun u hu => h.chain_mem u ?_, fun u n w hw => (hsimple u n w hw).plain⟩
  rwa [chain_insert] at hu

/-- A new scope whose values are simple, and whose chain is at work. -/
theorem enter (h : Engaged live s Γ) (hworking : Working (Γ.size :: live) Γ.size Δ)
    (hown : ∀ e ∈ own.entries, e.2.Simple live Γ) (houter : ∀ t ∈ Δ.outer Γ.size, t ∈ live)
    (hnew : ∀ t, Δ.own t = if t = Γ.size then own else Γ.own t) :
    Engaged (Γ.size :: live) Γ.size Δ := by
  refine ⟨hworking, List.forall_mem_cons.2 ⟨List.mem_cons_self .., fun t ht =>
    List.mem_cons_of_mem _ (houter t ht)⟩, fun t n v hv => ?_⟩
  rw [lookupOwn, hnew] at hv
  split at hv
  · exact (hown (n, v) (Bindings.find?_eq_some_iff.1 hv)).plain
  · exact h.plain t n v hv

theorem addChild (h : Engaged live s Γ) (hown : ∀ e ∈ own.entries, e.2.Simple live Γ) :
    Engaged (Γ.size :: live) Γ.size (Γ.addChild s own) := by
  refine h.enter (h.toWorking.addChild (fun e he => (hown e he).whole) s) hown (fun t ht => ?_)
    fun u => own_addChild Γ u s own
  rw [outer_addChild, if_pos rfl] at ht
  exact h.chain_mem t ht

theorem addRoot (h : Engaged live s Γ) : Engaged (Γ.size :: live) Γ.size (Γ.addRoot ∅) := by
  refine h.enter h.toWorking.addRoot Value.simple_noEntries (fun t ht => ?_)
    fun u => own_addRoot Γ u ∅
  rw [outer_addRoot, outer_of_size_le (Nat.le_refl _)] at ht
  cases ht

/-- Back in the scope that a run has come from. -/
theorem leave (h : Engaged live s Γ) (hspares : Spares live Γ Δ) (h' : Engaged (t :: live) t Δ) :
    Engaged live s Δ := by
  refine ⟨h'.toWorking.leave h.mem, fun u hu => h.chain_mem u ?_, h'.plain⟩
  rwa [chain, hspares.outer_eq s (h.lt s h.mem)] at hu

end Engaged

end Forest

namespace Evaluation

variable {α β : Type} {m m' : Machine} {P Q : α → Machine → Prop} {R : β → Machine → Prop}
  {x : EvalM α} {f : α → EvalM β} {a : α}

/-- A run from a machine on ends with a result in `Q`, or with an error of the program. Only scopes at
work are changed, and all values stay simple. -/
def Finishes (live : List ScopeId) (s : ScopeId) (Q : α → Machine → Prop) (x : EvalM α)
    (m : Machine) : Prop :=
  Ends (fun a m' => Spares live m.scopes m'.scopes ∧ Engaged live s m'.scopes ∧ Q a m') Fault.IsError
    (x m)

/-- The result is a value that is simple. -/
def Yields (live : List ScopeId) (v : Value) (m : Machine) : Prop := v.Simple live m.scopes

/-- The results are values that are simple. -/
def YieldsAll (live : List ScopeId) (vs : List Value) (m : Machine) : Prop :=
  ∀ v ∈ vs, v.Simple live m.scopes

/-- The statement ends with a value that is simple, in whichever way. -/
def Concluded (live : List ScopeId) (c : Completion) (m : Machine) : Prop :=
  c.value.Simple live m.scopes

section Rules

theorem Finishes.bind (hx : Finishes live s P x m)
    (hf : ∀ a m', Spares live m.scopes m'.scopes → Engaged live s m'.scopes → P a m' →
      Finishes live s R (f a) m') : Finishes live s R (x >>= f) m := by
  refine Ends.bind hx fun a m₁ _ h => ?_
  obtain ⟨hspares, hengaged, ha⟩ := h
  refine (hf a m₁ hspares hengaged ha).mono fun b m₂ _ h => ?_
  obtain ⟨hspares', hengaged', hb⟩ := h
  exact ⟨hspares.trans hspares', hengaged', hb⟩

theorem Finishes.imp (h : Finishes live s P x m) (hPQ : ∀ a m', P a m' → Q a m') :
    Finishes live s Q x m :=
  Ends.mono h fun a m' _ h => ⟨h.1, h.2.1, hPQ a m' h.2.2⟩

theorem finishes_fail (e : EvalError) : Finishes live s Q (fail e : EvalM α) m := trivial

variable (hm : Engaged live s m.scopes)
include hm

theorem finishes_pure (ha : Q a m) : Finishes live s Q (pure a : EvalM α) m :=
  ⟨.refl _ _, hm, ha⟩

/-- A step that leaves the scopes alone and can only fail with an error. -/
theorem finishes_still (hx : Keeps SameScopes x) (h : Ends Q Fault.IsError (x m)) :
    Finishes live s Q x m := by
  refine h.mono fun a m' hr ha => ?_
  have hscopes : m'.scopes = m.scopes := hx.of_ok hr
  rw [hscopes]
  exact ⟨.refl _ _, hm, ha⟩

theorem finishes_define (hv : v.Simple live m.scopes) (name : String) :
    Finishes live s (fun _ m' => v.Simple live m'.scopes) (define s name v) m := by
  unfold Finishes
  rw [define_apply]
  split
  · trivial
  · exact ⟨spares_insert hm.mem, hm.insert hv hm.mem, hv.keep (spares_insert hm.mem)⟩

theorem finishes_assign (hv : v.Simple live m.scopes) (name : String) :
    Finishes live s (fun _ m' => v.Simple live m'.scopes) (assign s name v) m := by
  unfold Finishes
  rw [assign_apply]
  split
  · next t ht =>
    have hmem := hm.owner_mem ht
    exact ⟨spares_insert hmem, hm.insert hv hmem, hv.keep (spares_insert hmem)⟩
  · trivial

/-- What is done in a new scope, and comes back from it. -/
theorem finishes_enter {x : EvalM ScopeId} {k : ScopeId → EvalM β} (hx : x m = .ok m.scopes.size m')
    (hkept : BindingsKept m.scopes m'.scopes)
    (hk : Finishes (m.scopes.size :: live) m.scopes.size R (k m.scopes.size) m') :
    Finishes live s R (x >>= k) m := by
  unfold Finishes
  rw [bind_apply, hx]
  refine Ends.mono hk fun b m'' _ h => ?_
  obtain ⟨hspares, hengaged, hb⟩ := h
  have hspares := hspares.leave hkept
  exact ⟨hspares, hm.leave hspares hengaged, hb⟩

theorem finishes_openChild (hown : ∀ e ∈ own.entries, e.2.Simple live m.scopes)
    {k : ScopeId → EvalM β}
    (hk : ∀ inner m', Engaged (inner :: live) inner m'.scopes →
      Finishes (inner :: live) inner R (k inner) m') :
    Finishes live s R (openChild s own >>= k) m :=
  finishes_enter hm openChild_apply kept_addChild (hk _ _ (hm.addChild hown))

/-- What is done in the scope of the members of a new object. -/
theorem finishes_openRoot {k : ScopeId → EvalM β}
    (hk : ∀ members m', members ∉ live → Engaged (members :: live) members m'.scopes →
      Finishes (members :: live) members R (k members) m') :
    Finishes live s R (openRoot >>= k) m :=
  finishes_enter hm openRoot_apply kept_addRoot
    (hk _ _ (fun hmem => Nat.lt_irrefl _ (hm.lt _ hmem)) hm.addRoot)

end Rules

section Checks

theorem yields_lookup (hm : Engaged live s m.scopes) (t : ScopeId) (name : String) :
    Ends (fun found m => ∀ v, found = some v → v.Simple live m.scopes) Fault.IsError
      (lookup t name m) := fun _ hv => hm.lookup hv

theorem yields_member (hm : Engaged live s m.scopes) (members : ScopeId) (name : String) :
    Ends (Yields live) Fault.IsError (member members name m) := by
  rw [member_apply]
  split
  · next v hv => exact hm.simple hv
  · trivial

theorem ends_requireBound (s : ScopeId) (name : String) :
    Ends (fun _ _ => True) Fault.IsError (requireBound s name m) := by
  rw [requireBound_apply]
  split <;> trivial

/-- What is whole by one look at a step, and plain by another, is simple. -/
theorem yields_of_quiet {x : EvalM Value} (h : Ends (Gives live) Fault.IsError (x m))
    (hplain : Quiet (fun _ => True) Evaluation.Plain x) : Ends (Yields live) Fault.IsError (x m) :=
  (h.and (hplain m)).mono fun _ _ _ hv => ⟨hv.1, hv.2.1⟩

theorem yields_of_scalar {x : EvalM Value} (h : Ends (Gives live) Fault.IsError (x m))
    (hscalar : Quiet (fun _ => True) Scalar x) : Ends (Yields live) Fault.IsError (x m) :=
  yields_of_quiet h (hscalar.mono fun _ => Scalar.plain)

/-- Native functions run none of the program, and make nothing of their arguments but lists. -/
theorem yields_native (f : Native) (hvs : ∀ v ∈ vs, v.Simple live m.scopes) :
    Ends (Yields live) Fault.IsError (f.call vs m) := by
  refine yields_of_quiet (ends_native f fun v hv => (hvs v hv).whole) ?_
  refine (quiet_native f vs (.inr fun _ _ => trivial)).mono fun v hv => ?_
  refine List.eq_nil_iff_forall_not_mem.2 fun c hc => ?_
  obtain ⟨u, hu, hc⟩ := Value.mem_closuresAll.1 (hv c hc)
  rw [show u.closures = [] from (hvs u hu).plain] at hc
  cases hc

end Checks

end Evaluation

end ObjectLang
