import ObjectLang.Proofs.Evaluation.Frame
import ObjectLang.Proofs.Scope.Lookup
import ObjectLang.Proofs.Scope.Visibility
import ObjectLang.Proofs.Scoping.Rules

/-!
Closures that are ready to be called: the names that their bodies use are seen from the scope that
they were made in. As scopes only ever get names, a closure that is ready stays so.
-/

namespace ObjectLang

mutual

/-- The closures in a value, those among the items of lists included. -/
def Value.closures : Value → List Closure
  | .function (.closure c) => [c]
  | .list items => closuresAll items
  | _ => []

def Value.closuresAll : List Value → List Closure
  | [] => []
  | v :: vs => v.closures ++ closuresAll vs

end

theorem Value.mem_closuresAll {c : Closure} {vs : List Value} :
    c ∈ closuresAll vs ↔ ∃ v ∈ vs, c ∈ v.closures := by
  induction vs with
  | nil => simp [closuresAll]
  | cons v vs ih => simp [closuresAll, ih]

mutual

/-- Functions that a literal holds are known by name only. -/
theorem Literal.closures_toValue (l : Literal) : l.toValue.closures = [] := by
  cases l with
  | list items => exact closuresAll_toValues items
  | _ => rfl

theorem Literal.closuresAll_toValues (ls : List Literal) :
    Value.closuresAll (Literal.toValues ls) = [] := by
  match ls with
  | [] => rfl
  | l :: ls =>
    rw [Literal.toValues, Value.closuresAll, closures_toValue l, closuresAll_toValues ls]
    rfl

end

variable {f g : ValueScopes} {s r : ScopeId} {name : String} {v : Value} {c : Closure}
  {outer own added : List String} {inFunction : Bool} {m : Machine}

/-- The body of a closure is well scoped where it was made. A method sees its receiver, too. -/
def Closure.Ready (f : ValueScopes) (c : Closure) : Prop :=
  ∃ outer, BlockScoped outer c.params true c.body ∧
    ∀ n ∈ outer, n ∈ f.namesFrom c.scope ∨ c.isMethod = true ∧ n = selfName

def Value.Ready (f : ValueScopes) (v : Value) : Prop := ∀ c ∈ v.closures, c.Ready f

/-- A statement has ended with values that are ready, and with a `RETURN` inside a function only. -/
def Completion.Ready (f : ValueScopes) (inFunction : Bool) : Completion → Prop
  | .normal v => v.Ready f
  | .returning v => inFunction = true ∧ v.Ready f

namespace Forest

/-- All closures that are bound to names are ready. -/
def Ready (f : ValueScopes) : Prop := ∀ s name v, f.lookupOwn s name = some v → v.Ready f

/-- A scope has exactly the names `own`, and the names `outer` are seen from it. -/
structure Hosts (f : ValueScopes) (s : ScopeId) (outer own : List String) : Prop where
  own_lt : s < f.size
  names_eq : f.names s = own
  sees : ∀ n ∈ outer, n ∈ f.namesFrom s

end Forest

open Forest

theorem Closure.Ready.grow (hc : c.Ready f) (h : AddsNames r added f g) : c.Ready g := by
  obtain ⟨outer, hbody, hsees⟩ := hc
  exact ⟨outer, hbody, fun n hn => (hsees n hn).imp_left h.mem_namesFrom⟩

theorem Value.Ready.grow (hv : v.Ready f) (h : AddsNames r added f g) : v.Ready g :=
  fun c hc => (hv c hc).grow h

theorem Value.Ready.keep (hv : v.Ready f) (h : NamesKept f g) : v.Ready g := hv.grow (h.adds 0)

theorem Forest.Hosts.mem (h : Hosts f s outer own) {n : String} (hn : n ∈ own ++ outer) :
    n ∈ f.namesFrom s := by
  rcases List.mem_append.1 hn with hn | hn
  · exact List.mem_append_left _ (h.names_eq ▸ hn)
  · exact h.sees n hn

theorem Forest.Hosts.grow (hh : Hosts f s outer own) (h : AddsNames s added f g) :
    Hosts g s outer (own ++ added) where
  own_lt := Nat.lt_of_lt_of_le hh.own_lt h.size_le
  names_eq := by
    have hview := h.view_eq s hh.own_lt
    rw [if_pos rfl] at hview
    rw [← hh.names_eq]
    exact hview
  sees n hn := h.mem_namesFrom (hh.sees n hn)

theorem Forest.Hosts.keep (hh : Hosts f s outer own) (h : NamesKept f g) : Hosts g s outer own := by
  simpa using hh.grow (h.adds s)

theorem mem_namesFrom_addChild {own : Bindings Value} {n : String} (hn : n ∈ f.namesFrom s) :
    n ∈ (f.addChild s own).namesFrom f.size := by
  obtain ⟨t, ht, hn⟩ := mem_namesFrom.1 hn
  have hlt : t < f.size := lt_size_of_mem_names hn
  refine mem_namesFrom.2 ⟨t, ?_, ?_⟩
  · rw [chain, outer_addChild, if_pos rfl]
    exact List.mem_cons_of_mem _ ht
  · rwa [names, own_addChild, if_neg (Nat.ne_of_lt hlt)]

/-- A new scope inside one that sees the outer names. -/
theorem hosts_addChild (own : Bindings Value) (h : ∀ n ∈ outer, n ∈ f.namesFrom s) :
    Hosts (f.addChild s own) f.size outer own.names where
  own_lt := by simp
  names_eq := names_addChild
  sees n hn := mem_namesFrom_addChild (h n hn)

theorem hosts_addRoot : Hosts (f.addRoot (∅ : Bindings Value)) f.size [] [] where
  own_lt := by simp
  names_eq := names_addRoot
  sees _ hn := by simp at hn

theorem ready_noEntries : ∀ e ∈ (∅ : Bindings Value).entries, e.2.Ready f := fun _ he => nomatch he

theorem ready_addChild {own : Bindings Value} (hf : f.Ready) (hown : ∀ e ∈ own.entries, e.2.Ready f) :
    (f.addChild s own).Ready := by
  intro t n v hv
  have hgrow : AddsNames s [] f (f.addChild s own) := kept_addChild.adds s
  rw [lookupOwn, own_addChild] at hv
  split at hv
  · exact (hown (n, v) (Bindings.find?_eq_some_iff.1 hv)).grow hgrow
  · exact (hf t n v hv).grow hgrow

theorem ready_addRoot {own : Bindings Value} (hf : f.Ready) (hown : ∀ e ∈ own.entries, e.2.Ready f) :
    (f.addRoot own).Ready := by
  intro t n v hv
  have hgrow : AddsNames 0 [] f (f.addRoot own) := kept_addRoot.adds 0
  rw [lookupOwn, own_addRoot] at hv
  split at hv
  · exact (hown (n, v) (Bindings.find?_eq_some_iff.1 hv)).grow hgrow
  · exact (hf t n v hv).grow hgrow

theorem ready_empty : (∅ : ValueScopes).Ready := fun _ _ _ hv => nomatch hv

theorem ready_insert (hf : f.Ready) (h : AddsNames r added f (f.insert s name v))
    (hv : v.Ready (f.insert s name v)) : (f.insert s name v).Ready := by
  intro t n w hw
  rcases lookupOwn_insert hw with hw | ⟨-, -, rfl⟩
  · exact (hf t n w hw).grow h
  · exact hv

theorem ready_lookup (hf : f.Ready) (h : f.lookup s name = some v) : v.Ready f := by
  obtain ⟨t, -, ht⟩ := List.exists_of_findSome?_eq_some h
  exact hf t name v ht

section Definitions

variable {d : DefDecl} {isMethod : Bool}

theorem methodsScoped_iff {ds : List DefDecl} :
    MethodsScoped outer ds ↔ ∀ d ∈ ds, DefScoped outer d := by
  induction ds with
  | nil => simp [MethodsScoped]
  | cons d ds ih => simp [MethodsScoped, ih]

theorem DefScoped.nodup (hsc : DefScoped outer d) : d.params.Nodup := by
  obtain ⟨name, params, annotations, returnType, body⟩ := d
  exact hsc.1

theorem exists_closure (hd : d.params.Nodup) (s : ScopeId) (isMethod : Bool) :
    ∃ c, Closure.ofDecl s isMethod d = .ok c := by
  obtain ⟨name, params, annotations, returnType, body⟩ := d
  have hnone : firstRepeat? [] params = none :=
    firstRepeat?_eq_none_iff.2 ⟨hd, fun _ _ hn => nomatch hn⟩
  dsimp only [Closure.ofDecl]
  split
  · exact ⟨_, rfl⟩
  · next p hp => simp [hnone] at hp

theorem ofDecl_scope (h : Closure.ofDecl s isMethod d = .ok c) : c.scope = s := by
  obtain ⟨name, params, annotations, returnType, body⟩ := d
  dsimp only [Closure.ofDecl] at h
  split at h
  · cases h
    rfl
  · cases h

/-- The closure of a well-scoped definition is ready when its scope has got all names. -/
theorem closure_ready (hsc : DefScoped outer d) (hc : Closure.ofDecl s isMethod d = .ok c)
    (hsees : ∀ n ∈ outer, n ∈ f.namesFrom s ∨ isMethod = true ∧ n = selfName) : c.Ready f := by
  obtain ⟨name, params, annotations, returnType, body⟩ := d
  dsimp only [Closure.ofDecl] at hc
  split at hc
  · cases hc
    exact ⟨outer, hsc.2, hsees⟩
  · cases hc

end Definitions

end ObjectLang
