import ObjectLang.Proofs.Scope.Lookup
import ObjectLang.Proofs.Scope.Views

/-!
Writes and what is seen of them from everywhere. Both writes bind a name in one scope: a new one in
the scope itself, a rebound one in the nearest scope that owns it. Who looks the name up and comes to
that scope before any other owner finds the new value, and nobody else notices.
-/

namespace ObjectLang.Forest

variable {α : Type} {f g : Forest α} {s t : ScopeId} {name other : String} {value : α}

/-- Going outwards from `t`, the first scope that is `s` or owns the name is `s`. -/
def Meets (f : Forest α) (t s : ScopeId) (name : String) : Prop :=
  (f.chain t).find? (fun u => u == s || f.containsOwn u name) = some s

instance (f : Forest α) (t s : ScopeId) (name : String) : Decidable (f.Meets t s name) :=
  inferInstanceAs (Decidable (_ = _))

/-- Who owns a name is met exactly where it is the nearest owner. -/
theorem meets_iff_owner (hname : name ∈ f.names s) :
    f.Meets t s name ↔ f.owner? t name = some s := by
  have hpred : (fun u => u == s || f.containsOwn u name) = fun u => f.containsOwn u name := by
    funext u
    by_cases hu : u = s
    · simp [hu, containsOwn_iff.2 hname]
    · simp [hu]
  rw [Meets, hpred, owner?]

/-- A walk finds the binding if it comes to the scope before any owner, and else goes on as before. -/
theorem findSome?_insert (hs : s < f.size) (ts : List ScopeId) :
    (ts.findSome? fun u => (f.insert s name value).lookupOwn u name) =
      if ts.find? (fun u => u == s || f.containsOwn u name) = some s then some value
      else ts.findSome? fun u => f.lookupOwn u name := by
  simp only [lookupOwn_insert_eq hs]
  induction ts with
  | nil => rfl
  | cons u us ih =>
    by_cases hu : u = s
    · simp [hu]
    · cases hvalue : f.lookupOwn u name with
      | none =>
        have hown : f.containsOwn u name = false := by
          rw [← Bool.not_eq_true, containsOwn_iff]
          exact Bindings.find?_eq_none_iff.1 hvalue
        simpa [hu, hvalue, hown] using ih
      | some v =>
        have hown : f.containsOwn u name = true :=
          containsOwn_iff.2 (Bindings.mem_names_iff.2 ⟨v, hvalue⟩)
        simp [hu, hvalue, hown]

theorem lookup_insert_eq (hs : s < f.size) : (f.insert s name value).lookup t other =
    if other = name ∧ f.Meets t s name then some value else f.lookup t other := by
  simp only [lookup, chain_insert]
  by_cases hother : other = name
  · subst hother
    rw [findSome?_insert hs]
    by_cases hmeets : f.Meets t s other
    · exact (if_pos hmeets).trans (if_pos ⟨rfl, hmeets⟩).symm
    · exact (if_neg hmeets).trans (if_neg fun h => hmeets h.2).symm
  · simp [lookupOwn_insert_eq hs, hother]

theorem define_eq_ok_iff : f.define s name value = .ok g ↔
    name ∉ f.names s ∧ g = f.insert s name value := by
  rw [define, ← containsOwn_iff]
  by_cases h : f.containsOwn s name = true <;> simp [h, eq_comm]

theorem define_eq_error_iff {e : ScopeError} : f.define s name value = .error e ↔
    name ∈ f.names s ∧ e = .alreadyDefined name := by
  rw [define, ← containsOwn_iff]
  by_cases h : f.containsOwn s name = true <;> simp [h, eq_comm]

theorem assign_eq_ok_iff : f.assign s name value = .ok g ↔
    ∃ t, f.owner? s name = some t ∧ g = f.insert t name value := by
  rw [assign]
  cases f.owner? s name <;> simp [eq_comm]

theorem owner?_eq_none_iff : f.owner? s name = none ↔ ∀ t ∈ f.chain s, name ∉ f.names t := by
  simp [owner?, ← containsOwn_iff]

theorem assign_eq_error_iff {e : ScopeError} : f.assign s name value = .error e ↔
    (∀ t ∈ f.chain s, name ∉ f.names t) ∧ e = .notDefined name := by
  rw [assign, ← owner?_eq_none_iff]
  cases f.owner? s name <;> simp [eq_comm]

theorem names_visible (h : ∀ u, g.names u = f.names u) (hchain : g.chain t = f.chain t)
    (ownOnly : Bool) : (g.visible t ownOnly).names = (f.visible t ownOnly).names := by
  cases ownOnly with
  | true => exact h t
  | false =>
    have hnames : g.names = f.names := funext h
    exact (g.names_collect t).trans (by rw [hchain, hnames, ← names_collect]; rfl)

/-- Writes are local, in any forest. A name that is rebound from a scope is found with the new value
by those who have the same nearest owner of it as that scope, nothing else is found in another way,
and all listings of names stay as they are. A name that is defined in a scope is found with its value
by those who come to the scope before any other owner of the name, and nothing else is found in
another way. A name that the scope owns already cannot be defined and one that no scope around owns
cannot be rebound; the failure leaves everything as it was. -/
theorem writes_local (hs : s < f.size) (name : String) (value : α) :
    (∀ g, f.assign s name value = .ok g →
      (∀ t other, g.lookup t other =
        if other = name ∧ f.owner? t name = f.owner? s name then some value
        else f.lookup t other) ∧
      (∀ t, g.names t = f.names t) ∧
      ∀ t ownOnly, (g.visible t ownOnly).names = (f.visible t ownOnly).names) ∧
    (∀ g, f.define s name value = .ok g → ∀ t other, g.lookup t other =
      if other = name ∧ f.Meets t s name then some value else f.lookup t other) ∧
    (∀ e, f.define s name value = .error e ↔
      name ∈ f.names s ∧ e = .alreadyDefined name) ∧
    (∀ e, f.assign s name value = .error e ↔
      (∀ t ∈ f.chain s, name ∉ f.names t) ∧ e = .notDefined name) ∧
    (∀ e, f.define s name value = .error e → f.after (.define s name value) = f) ∧
    ∀ e, f.assign s name value = .error e → f.after (.assign s name value) = f := by
  refine ⟨fun g hg => ?_, fun g hg t other => ?_, fun e => define_eq_error_iff,
    fun e => assign_eq_error_iff, fun e he => ?_, fun e he => ?_⟩
  · obtain ⟨o, howner, rfl⟩ := assign_eq_ok_iff.1 hg
    have hname : name ∈ f.names o := mem_names_of_owner howner
    have hnames (t : ScopeId) : (f.insert o name value).names t = f.names t :=
      names_insert_of_mem hname value t
    refine ⟨fun t other => ?_, hnames, fun t => names_visible hnames (f.chain_insert t o name value)⟩
    simp only [lookup_insert_eq (lt_size_of_mem_names hname), meets_iff_owner hname, howner]
  · obtain ⟨-, rfl⟩ := define_eq_ok_iff.1 hg
    exact lookup_insert_eq hs
  · rw [after, he]
    rfl
  · rw [after, he]
    rfl

/-- A scope with two others in it, one of which has its own "a" and the other a scope inside. -/
def siblings : List (Step Nat) :=
  [.root, .child 0, .child 0, .child 1, .define 0 "a" 1, .define 2 "a" 2]

/-- An "a" that is rebound in the innermost scope is that of the outermost one, and one that is
defined halfway hides it; the other side sees neither. -/
theorem writes_local_siblings :
    (∀ g, (run ∅ siblings).assign 3 "a" 5 = .ok g → (g.lookup · "a") <$> [0, 1, 2, 3] =
      [some 5, some 5, some 2, some 5]) ∧
    (∀ g, (run ∅ siblings).define 1 "a" 7 = .ok g → (g.lookup · "a") <$> [0, 1, 2, 3] =
      [some 1, some 7, some 2, some 7]) ∧
    (run ∅ siblings).define 2 "a" 9 = .error (.alreadyDefined "a") ∧
    (run ∅ siblings).assign 3 "b" 9 = .error (.notDefined "b") := by
  obtain ⟨hassign, -⟩ := writes_local (f := run ∅ siblings) (s := 3) (by decide) "a" 5
  obtain ⟨-, hdefine, -⟩ := writes_local (f := run ∅ siblings) (s := 1) (by decide) "a" 7
  obtain ⟨-, -, htwice, -⟩ := writes_local (f := run ∅ siblings) (s := 2) (by decide) "a" 9
  obtain ⟨-, -, -, hunbound, -⟩ := writes_local (f := run ∅ siblings) (s := 3) (by decide) "b" 9
  refine ⟨fun g hg => ?_, fun g hg => ?_, (htwice _).2 (by decide), (hunbound _).2 (by decide)⟩
  · simp only [(hassign g hg).1]
    decide
  · simp only [hdefine g hg]
    decide

end ObjectLang.Forest
