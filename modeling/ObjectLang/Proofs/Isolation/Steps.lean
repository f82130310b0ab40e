import ObjectLang.Proofs.Evaluation.Frame
import ObjectLang.Proofs.Scoping.Steps

/-!
Runs that are confined to new scopes. From the scopes that a confined run makes no way leads back to
the scopes from before, neither around a scope nor through a value, and there are no native
functions in them that could write.
-/

namespace ObjectLang

variable {k : ScopeId} {v : Value}

mutual

/-- A value that refers to scopes from `k` on only, and that holds no native function. -/
def Value.Within (k : ScopeId) : Value → Prop
  | .function (.native _) => False
  | .function (.closure c) => k ≤ c.scope
  | .object _ members => k ≤ members
  | .list items => AllWithin k items
  | _ => True

def Value.AllWithin (k : ScopeId) : List Value → Prop
  | [] => True
  | v :: vs => v.Within k ∧ AllWithin k vs

end

theorem Value.allWithin_iff {vs : List Value} : AllWithin k vs ↔ ∀ v ∈ vs, v.Within k := by
  induction vs with
  | nil => simp [AllWithin]
  | cons v vs ih => simp [AllWithin, ih]

mutual

theorem Literal.within_toValue (l : Literal) : l.toValue.Within k := by
  cases l with
  | list items => exact allWithin_toValues items
  | _ => trivial

theorem Literal.allWithin_toValues (ls : List Literal) :
    Value.AllWithin k (Literal.toValues ls) := by
  match ls with
  | [] => trivial
  | l :: ls => exact ⟨within_toValue l, allWithin_toValues ls⟩

end

namespace Evaluation

open Forest

variable {α β : Type} {before : Machine} {P : α → Prop} {Q : β → Prop} {x : EvalM α}
  {f : α → EvalM β} {s : ScopeId} {name : String} {own : Bindings Value}

theorem Scalar.within (hv : Scalar v) : v.Within k := by
  cases v <;> trivial

/-- A machine differs from `before` in new scopes only, which lead to new scopes only. -/
structure Confined (before m : Machine) : Prop where
  kept : BindingsKept before.scopes m.scopes
  output_eq : m.output = before.output
  outer_ge : ∀ t, before.scopes.size ≤ t → ∀ u ∈ m.scopes.outer t, before.scopes.size ≤ u
  within : ∀ t, before.scopes.size ≤ t → ∀ n v,
    m.scopes.lookupOwn t n = some v → v.Within before.scopes.size

theorem Confined.refl (m : Machine) : Confined m m where
  kept := Kept.refl _ _
  output_eq := rfl
  outer_ge t ht u hu := by simp [outer_of_size_le ht] at hu
  within t ht n v hv := by
    rw [lookupOwn, own_of_size_le ht] at hv
    cases hv

theorem Confined.chain_ge {m : Machine} (h : Confined before m) (hs : before.scopes.size ≤ s)
    {t : ScopeId} (ht : t ∈ m.scopes.chain s) : before.scopes.size ≤ t := by
  rcases List.mem_cons.1 ht with rfl | ht
  · exact hs
  · exact h.outer_ge s hs t ht

/-- Steps that stay in confinement, and end with results in `P` if they end well. -/
def Stays (before : Machine) (P : α → Prop) (x : EvalM α) : Prop :=
  ∀ m, Confined before m → match x m with
    | .ok a m' => Confined before m' ∧ P a
    | .error _ m' => Confined before m'

theorem Stays.pure {a : α} (h : P a) : Stays before P (pure a) := fun _ hm => ⟨hm, h⟩

theorem Stays.bind (hx : Stays before P x) (hf : ∀ a, P a → Stays before Q (f a)) :
    Stays before Q (x >>= f) := by
  intro m hm
  have h := hx m hm
  rw [bind_apply]
  cases hr : x m with
  | ok a m' =>
    rw [hr] at h
    exact hf a h.2 m' h.1
  | error e m' =>
    rw [hr] at h
    exact h

theorem Stays.mono {P' : α → Prop} (hx : Stays before P x) (h : ∀ a, P a → P' a) :
    Stays before P' x := by
  intro m hm
  have hr := hx m hm
  split at hr
  · exact ⟨hr.1, h _ hr.2⟩
  · exact hr

theorem Confined.final (hx : Stays before P x) : Confined before (finalState (x before)) := by
  have h := hx before (Confined.refl before)
  split at h
  · next hr =>
    rw [hr]
    exact h.1
  · next hr =>
    rw [hr]
    exact h

/-- What only reads leaves the machine as it is. -/
theorem Stays.ofReading (hx : Keeps Eq x) (hP : ∀ m a m', x m = .ok a m' → Confined before m → P a) :
    Stays before P x := by
  intro m hm
  cases hr : x m with
  | ok a m' =>
    obtain rfl := hx.of_ok hr
    exact ⟨hm, hP m a m hr hm⟩
  | error e m' =>
    obtain rfl := hx.of_error hr
    exact hm

theorem Stays.ofQuiet (hx : Keeps Eq x) (hq : Quiet Allowed P x) : Stays before P x := by
  refine .ofReading hx fun m a m' hr _ => ?_
  have h := hq m
  rw [hr] at h
  exact h.1

theorem stays_fail (e : EvalError) : Stays before P (fail e : EvalM α) := fun _ hm => hm

theorem stays_report (event : Event) : Stays before (fun _ => True) (report event) :=
  fun _ hm => ⟨⟨hm.kept, hm.output_eq, hm.outer_ge, hm.within⟩, trivial⟩

theorem stays_lookup (hs : before.scopes.size ≤ s) (name : String) :
    Stays before (fun v => ∀ w, v = some w → w.Within before.scopes.size) (lookup s name) := by
  refine .ofReading (keeps_lookup s name) fun m v m' hr hm w hv => ?_
  have hfound : m.scopes.lookup s name = v := by
    cases hr
    rfl
  obtain ⟨t, ht, hw⟩ := List.exists_of_findSome?_eq_some (hfound.trans hv)
  exact hm.within t (hm.chain_ge hs ht) name w hw

theorem stays_member (hs : before.scopes.size ≤ s) (name : String) :
    Stays before (Value.Within before.scopes.size) (member s name) := by
  refine .ofReading (keeps_member s name) fun m v m' hr hm => ?_
  rw [member_apply] at hr
  split at hr
  · next hv =>
    cases hr
    exact hm.within s hs name v hv
  · cases hr

theorem stays_requireObject (hv : v.Within k) : Stays before (k ≤ ·) (requireObject v) := by
  cases v <;> first | exact .pure hv | exact stays_fail _

theorem stays_requireFunction (hv : v.Within k) (name : String) :
    Stays before (fun f => (Value.function f).Within k) (requireFunction name v) := by
  cases v <;> first | exact .pure hv | exact stays_fail _

/-- A new scope among the new ones. -/
theorem Confined.addChild {m : Machine} (h : Confined before m) (hs : before.scopes.size ≤ s)
    (hown : ∀ e ∈ own.entries, e.2.Within before.scopes.size) :
    Confined before { m with scopes := m.scopes.addChild s own } where
  kept := h.kept.trans kept_addChild
  output_eq := h.output_eq
  outer_ge t ht u hu := by
    rw [outer_addChild] at hu
    split at hu
    · exact h.chain_ge hs hu
    · exact h.outer_ge t ht u hu
  within t ht n v hv := by
    rw [lookupOwn, own_addChild] at hv
    split at hv
    · exact hown (n, v) (Bindings.find?_eq_some_iff.1 hv)
    · exact h.within t ht n v hv

theorem Confined.addRoot {m : Machine} (h : Confined before m) :
    Confined before { m with scopes := m.scopes.addRoot ∅ } where
  kept := h.kept.trans kept_addRoot
  output_eq := h.output_eq
  outer_ge t ht u hu := h.outer_ge t ht u (by rwa [outer_addRoot] at hu)
  within t ht n v hv := by
    rw [lookupOwn, own_addRoot] at hv
    split at hv
    · cases hv
    · exact h.within t ht n v hv

theorem Confined.insert {m : Machine} (h : Confined before m) (hs : before.scopes.size ≤ s)
    (hv : v.Within before.scopes.size) :
    Confined before { m with scopes := m.scopes.insert s name v } where
  kept :=
    { size_le := by simpa using h.kept.size_le
      outer_eq := fun t ht => by rw [outer_insert, h.kept.outer_eq t ht]
      view_eq := fun t ht => by
        rw [own_insert_of_ne name v (by omega : t ≠ s), h.kept.view_eq t ht] }
  output_eq := h.output_eq
  outer_ge t ht u hu := h.outer_ge t ht u (by rwa [outer_insert] at hu)
  within t ht n w hw := by
    rcases lookupOwn_insert hw with hw | ⟨-, -, rfl⟩
    · exact h.within t ht n w hw
    · exact hv

theorem stays_openChild (hs : before.scopes.size ≤ s)
    (hown : ∀ e ∈ own.entries, e.2.Within before.scopes.size) :
    Stays before (before.scopes.size ≤ ·) (openChild s own) :=
  fun _ hm => ⟨hm.addChild hs hown, hm.kept.size_le⟩

theorem stays_openRoot : Stays before (before.scopes.size ≤ ·) openRoot :=
  fun _ hm => ⟨hm.addRoot, hm.kept.size_le⟩

theorem stays_define (hs : before.scopes.size ≤ s) (name : String)
    (hv : v.Within before.scopes.size) : Stays before (fun _ => True) (define s name v) := by
  intro m hm
  rw [define_apply]
  by_cases hc : m.scopes.containsOwn s name = true
  · rw [if_pos hc]
    exact hm
  · rw [if_neg hc]
    exact ⟨hm.insert hs hv, trivial⟩

theorem stays_assign (hs : before.scopes.size ≤ s) (name : String)
    (hv : v.Within before.scopes.size) : Stays before (fun _ => True) (assign s name v) := by
  intro m hm
  rw [assign_apply]
  cases ht : m.scopes.owner? s name with
  | none => exact hm
  | some t => exact ⟨hm.insert (hm.chain_ge hs (List.mem_of_find?_eq_some ht)) hv, trivial⟩

end Evaluation

end ObjectLang
