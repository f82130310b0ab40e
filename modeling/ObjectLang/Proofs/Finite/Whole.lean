import ObjectLang.Proofs.Finite.Values
import ObjectLang.Proofs.Resolution.Uses
import ObjectLang.Proofs.Scope.Lookup
import ObjectLang.Proofs.Scope.Visibility

/-!
Values that are whole. Their objects are complete: of the scopes that a run is still going to bind
names in, none has the members of an object that is found in a value. So nothing changes in a value
that is whole, and what is in it has been whole before it; following what is in it comes to an end.
-/

namespace ObjectLang

open Forest

/-- The statement assigns to a variable or a property. -/
def Stmt.IsAssignment : Stmt → Prop
  | .assignStmt _ _ => True
  | _ => False

/-- No statement of a block is an assignment. -/
def NoAssignments (sts : List Stmt) : Prop := ∀ st ∈ sts, ¬ st.IsAssignment

/-- No assignment stands inside an expression. -/
abbrev Expr.AssignmentFree : Expr → Prop := Expr.Every (fun _ => True) NoAssignments

/-- A statement is no assignment, and none stands inside it. -/
def Stmt.AssignmentFree (st : Stmt) : Prop :=
  ¬ st.IsAssignment ∧ st.Every (fun _ => True) NoAssignments

/-- A program contains no assignment. -/
def Program.AssignmentFree : Program → Prop
  | .source stmts => ∀ st ∈ stmts, st.AssignmentFree
  | .stmt st => st.AssignmentFree
  | .expr e => e.AssignmentFree

theorem assignmentFree_of_block {sts : List Stmt} (h : NoAssignments sts)
    (hall : StmtsEvery (fun _ => True) NoAssignments sts) : ∀ st ∈ sts, st.AssignmentFree :=
  fun st hst => ⟨h st hst, hall.of_mem hst⟩

/-- The body of a function contains no assignment. -/
def Callable.AssignmentFree : Callable → Prop
  | .closure c => ∀ st ∈ c.body, st.AssignmentFree
  | .native _ | .named _ => True

variable {live : List ScopeId} {Γ Δ : ValueScopes} {s t : ScopeId} {name : String} {v w : Value}
  {vs : List Value} {own : Bindings Value} {added : List (String × Value)}

namespace Value

/-- What a value itself must be like to be whole, where names can still be bound in `live`. -/
def Fit (live : List ScopeId) (size : Nat) : Value → Prop
  | .function f => f.AssignmentFree
  | .object _ a => a < size ∧ a ∉ live
  | _ => True

/-- The value, and all that is in it, comes to an end and is made of complete objects. -/
inductive Whole (live : List ScopeId) (Γ : ValueScopes) : Value → Prop where
  | mk {u} : u.Fit live Γ.size → (∀ w, Inside Γ w u → Whole live Γ w) → Whole live Γ u

namespace Whole

theorem fit (h : v.Whole live Γ) : v.Fit live Γ.size := by
  cases h with
  | mk hfit _ => exact hfit

theorem inside (h : v.Whole live Γ) (hw : Inside Γ w v) : w.Whole live Γ := by
  cases h with
  | mk _ hinside => exact hinside w hw

theorem acc (h : v.Whole live Γ) : Acc (Inside Γ) v := by
  induction h with
  | mk _ _ ih => exact ⟨_, ih⟩

/-- The objects in a value are neither those in the making nor new ones. -/
theorem keep {live' : List ScopeId} (h : v.Whole live Γ) (hsize : Γ.size ≤ Δ.size)
    (hown : ∀ a < Γ.size, a ∉ live → Δ.own a = Γ.own a)
    (hlive : ∀ a < Γ.size, a ∈ live' → a ∈ live) : v.Whole live' Δ := by
  induction h with
  | @mk v hfit _ ih =>
    cases v with
    | object n a =>
      obtain ⟨hlt, hnot⟩ := hfit
      refine .mk ⟨Nat.lt_of_lt_of_le hlt hsize, fun ha => hnot (hlive a hlt ha)⟩ ?_
      rintro w ⟨name, hw⟩
      rw [lookupOwn, hown a hlt hnot] at hw
      exact ih w ⟨name, hw⟩
    | list items => exact .mk trivial ih
    | _ => exact .mk hfit fun w hw => nomatch hw

theorem grow (h : v.Whole live Γ) (hs : s ∈ live) (hadds : AddsEntries s added Γ Δ) :
    v.Whole live Δ :=
  h.keep hadds.size_le (fun _ ha hnot => hadds.own_eq ha fun he => hnot (he ▸ hs)) fun _ _ => id

/-- A new scope in which names are bound has nothing to do with values from before. -/
theorem enter (h : v.Whole live Γ) (hkept : BindingsKept Γ Δ) : v.Whole (Γ.size :: live) Δ := by
  refine h.keep hkept.size_le (fun a ha _ => hkept.own_eq ha) fun a ha hmem => ?_
  rcases List.mem_cons.1 hmem with rfl | hmem
  · exact absurd ha (Nat.lt_irrefl _)
  · exact hmem

theorem leave (h : v.Whole (t :: live) Γ) : v.Whole live Γ :=
  h.keep (Nat.le_refl _) (fun _ _ _ => rfl) fun _ _ => List.mem_cons_of_mem t

/-- What is whole while names are bound is whole if none is bound any more. -/
theorem ever (h : v.Whole live Γ) : v.Whole [] Γ :=
  h.keep (Nat.le_refl _) (fun _ _ _ => rfl) fun _ _ hmem => nomatch hmem

end Whole

theorem whole_noEntries : ∀ e ∈ (∅ : Bindings Value).entries, e.2.Whole live Γ :=
  fun _ he => nomatch he

theorem whole_list (h : ∀ v ∈ vs, v.Whole live Γ) : (Value.list vs).Whole live Γ := .mk trivial h

/-- Nothing is in the value, and it is no function. -/
def Flat : Value → Prop
  | .list _ | .function _ | .object _ _ => False
  | _ => True

theorem whole_of_flat (h : v.Flat) : v.Whole live Γ := by
  cases v with
  | list _ | function _ | object _ _ => exact h.elim
  | _ => exact .mk trivial fun _ hw => nomatch hw

theorem whole_nil : Value.nil.Whole live Γ := whole_of_flat trivial

theorem whole_function {f : Callable} (h : f.AssignmentFree) : (Value.function f).Whole live Γ :=
  .mk h fun _ hw => nomatch hw

mutual

theorem whole_literal (l : Literal) : l.toValue.Whole live Γ := by
  cases l with
  | list items => exact whole_list (whole_literals items)
  | function name => exact whole_function trivial
  | _ => exact whole_of_flat trivial

theorem whole_literals (ls : List Literal) : ∀ v ∈ Literal.toValues ls, v.Whole live Γ := by
  match ls with
  | [] => exact fun _ hv => nomatch hv
  | l :: ls => exact List.forall_mem_cons.2 ⟨whole_literal l, whole_literals ls⟩

end

end Value

namespace Forest

/-- A run binds names in `s`, and all values that are bound are whole. -/
structure Working (live : List ScopeId) (s : ScopeId) (Γ : ValueScopes) : Prop where
  mem : s ∈ live
  lt : ∀ t ∈ live, t < Γ.size
  whole : ∀ t name v, Γ.lookupOwn t name = some v → v.Whole live Γ

namespace Working

theorem lookup (h : Working live s Γ) (hv : Γ.lookup t name = some v) : v.Whole live Γ := by
  obtain ⟨o, -, hv⟩ := owner_of_lookup hv
  exact h.whole o name v hv

theorem define (h : Working live s Γ) (hv : v.Whole live Γ) (hn : name ∉ Γ.names s) :
    Working live s (Γ.insert s name v) := by
  have hadds := addsEntries_insert v hn
  refine ⟨h.mem, fun t ht => by simpa using h.lt t ht, fun t n w hw => ?_⟩
  obtain hw | ⟨-, -, rfl⟩ := lookupOwn_insert hw
  · exact (h.whole t n w hw).grow h.mem hadds
  · exact hv.grow h.mem hadds

/-- A new scope whose values are whole. -/
theorem enter (h : Working live s Γ) (hown : ∀ e ∈ own.entries, e.2.Whole live Γ)
    (hkept : BindingsKept Γ Δ) (hsize : Δ.size = Γ.size + 1)
    (hnew : ∀ t, Δ.own t = if t = Γ.size then own else Γ.own t) :
    Working (Γ.size :: live) Γ.size Δ := by
  refine ⟨List.mem_cons_self .., ?_, fun t n v hv => ?_⟩
  · rw [hsize]
    exact List.forall_mem_cons.2 ⟨Nat.lt_succ_self _, fun t ht => Nat.lt_succ_of_lt (h.lt t ht)⟩
  · rw [lookupOwn, hnew] at hv
    split at hv
    · exact (hown (n, v) (Bindings.find?_eq_some_iff.1 hv)).enter hkept
    · exact (h.whole t n v hv).enter hkept

theorem addChild (h : Working live s Γ) (hown : ∀ e ∈ own.entries, e.2.Whole live Γ) (t : ScopeId) :
    Working (Γ.size :: live) Γ.size (Γ.addChild t own) :=
  h.enter hown kept_addChild (by simp) fun u => own_addChild Γ u t own

theorem addRoot (h : Working live s Γ) : Working (Γ.size :: live) Γ.size (Γ.addRoot ∅) :=
  h.enter Value.whole_noEntries kept_addRoot (by simp) fun u => own_addRoot Γ u ∅

theorem leave (h : Working (t :: live) t Γ) (hs : s ∈ live) : Working live s Γ :=
  ⟨hs, fun u hu => h.lt u (List.mem_cons_of_mem t hu), fun u n v hv => (h.whole u n v hv).leave⟩

/-- An object whose members are all there, when no more names are bound among them. -/
theorem object (h : Working (t :: live) t Γ) (ht : t ∉ live) (name : Option String) :
    (Value.object name t).Whole live Γ := by
  refine .mk ⟨h.lt t (List.mem_cons_self ..), ht⟩ ?_
  rintro w ⟨n, hw⟩
  exact (h.whole t n w hw).leave

end Working

end Forest

end ObjectLang
