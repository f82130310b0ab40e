import ObjectLang.Proofs.Resolution.Compositional
import ObjectLang.Proofs.Scoping.Heap

/-!
The moments of a run account for what becomes of the scopes. From one machine that is noted to the
next, every binding stays as it is, unless it is noted that the name is assigned to in that scope. So
a binding holds for as long as no such moment is passed.
-/

namespace ObjectLang.Evaluation

open Forest

/-- The machine that a run is in at a moment, if it is noted. -/
def Moment.machine? : Moment → Option Machine
  | .opened _ _ _ _ | .valued _ _ _ _ => none
  | .made _ m | .called _ m | .method _ _ _ m | .assigned _ _ m | .reached m => some m

/-- Whatever is bound in `m` is bound to the same value in `m'`. -/
def KeepsBindings (m m' : Machine) : Prop :=
  ∀ s n v, m.scopes.lookupOwn s n = some v → m'.scopes.lookupOwn s n = some v

instance : IsPreorder Machine KeepsBindings where
  refl _ _ _ _ := id
  trans _ _ _ h h' s n v hv := h' s n v (h s n v hv)

/-- What the scopes are after a moment, if they are `f` before it. -/
def Moment.Leads (f f' : ValueScopes) : Moment → Prop
  | .opened _ _ _ _ | .valued _ _ _ _ => f' = f
  | .made _ m | .called _ m | .method _ _ _ m => m.scopes = f ∧ f' = f
  | .assigned s n m => m.scopes = f' ∧ ∃ v, f' = f.insert s n v
  | .reached m => m.scopes = f' ∧ ∀ s n v, f.lookupOwn s n = some v → f'.lookupOwn s n = some v

/-- Moments that lead from scopes to scopes, one after another. -/
inductive Trace : ValueScopes → List Moment → ValueScopes → Prop where
  | nil {f} : Trace f [] f
  | cons {f f' f'' k ks} : k.Leads f f' → Trace f' ks f'' → Trace f (k :: ks) f''

section Traces

variable {f f' f'' : ValueScopes} {k : Moment} {ks ks' : List Moment} {m : Machine} {s : ScopeId}
  {name : String} {v : Value}

theorem Trace.append (h : Trace f ks f') (h' : Trace f' ks' f'') : Trace f (ks ++ ks') f'' := by
  induction h with
  | nil => exact h'
  | cons hk _ ih => exact .cons hk (ih h')

theorem Trace.split (h : Trace f (ks ++ ks') f'') : ∃ f', Trace f ks f' ∧ Trace f' ks' f'' := by
  induction ks generalizing f with
  | nil => exact ⟨f, .nil, h⟩
  | cons k ks ih =>
    cases h with
    | cons hk h =>
      obtain ⟨f', hks, hks'⟩ := ih h
      exact ⟨f', .cons hk hks, hks'⟩

/-- A moment at which a name is not assigned to leaves it bound as it is. -/
theorem Moment.Leads.lookupOwn (h : k.Leads f f') (hk : ∀ m, k ≠ .assigned s name m)
    (hv : f.lookupOwn s name = some v) : f'.lookupOwn s name = some v ∧
      ∀ m, k.machine? = some m → m.scopes.lookupOwn s name = some v := by
  cases k with
  | opened _ _ _ _ | valued _ _ _ _ =>
    obtain rfl : f' = f := h
    exact ⟨hv, nofun⟩
  | made c m | called c m | method t n w m =>
    obtain ⟨rfl, rfl⟩ := h
    exact ⟨hv, by rintro _ ⟨⟩; exact hv⟩
  | assigned t n m =>
    obtain ⟨rfl, w, hinsert⟩ := h
    have hv' : m.scopes.lookupOwn s name = some v := by
      rw [hinsert]
      by_cases ht : t < f.size
      · rw [lookupOwn_insert_eq ht, if_neg, hv]
        rintro ⟨rfl, rfl⟩
        exact hk m rfl
      · have hs : s ≠ t := by
          rintro rfl
          exact ht (lt_size_of_mem_names (Bindings.mem_names_iff.2 ⟨v, hv⟩))
        rw [Forest.lookupOwn, own_insert_of_ne n w hs]
        exact hv
    exact ⟨hv', by rintro _ ⟨⟩; exact hv'⟩
  | reached m =>
    obtain ⟨rfl, hkeeps⟩ := h
    exact ⟨hkeeps s name v hv, by rintro _ ⟨⟩; exact hkeeps s name v hv⟩

/-- A binding holds in all machines of a trace in which its name is not assigned to. -/
theorem Trace.lookupOwn (h : Trace f ks f') (hks : ∀ m, .assigned s name m ∉ ks)
    (hv : f.lookupOwn s name = some v) : f'.lookupOwn s name = some v ∧
      ∀ k ∈ ks, ∀ m, k.machine? = some m → m.scopes.lookupOwn s name = some v := by
  induction h with
  | nil => exact ⟨hv, fun _ hk => nomatch hk⟩
  | cons hk _ ih =>
    obtain ⟨hv', hm⟩ := hk.lookupOwn (fun m heq => hks m (heq ▸ List.mem_cons_self ..)) hv
    obtain ⟨hlast, hrest⟩ := ih (fun m hmem => hks m (List.mem_cons_of_mem _ hmem)) hv'
    exact ⟨hlast, List.forall_mem_cons.2 ⟨hm, hrest⟩⟩

end Traces

/-- The moments of a run lead from the scopes at its start to those at its end. -/
def Traced {α : Type} (w : Watched α) : Prop :=
  ∀ m, Trace m.scopes (w.moments m) (finalState (w.run m)).scopes

variable {α β : Type} {w : Watched α} {g : α → Watched β} {x : EvalM α} {s : ScopeId} {name : String}

namespace Traced

theorem pure (a : α) : Traced (Pure.pure a : Watched α) := fun _ => .nil

theorem bind (hw : Traced w) (hg : ∀ a, Traced (g a)) : Traced (w >>= g) := by
  intro m
  have h := hw m
  show Trace _ (w.moments m ++ _) _
  rw [run_bind, bind_apply]
  cases hr : w.run m with
  | ok a m' =>
    rw [hr] at h
    exact h.append (hg a m')
  | error e m' =>
    rw [hr] at h
    exact h.append .nil

/-- A step that binds names anew only where they are not bound. -/
theorem step (hx : Keeps KeepsBindings x) : Traced (Evaluation.step x) :=
  fun m => .cons ⟨rfl, hx m⟩ .nil

theorem opened (s outer : ScopeId) (path : Path) (declared : List String) :
    Traced (mark fun _ => .opened s outer path declared) := fun _ => .cons rfl .nil

theorem noting {w : Watched Value} (s : ScopeId) (path : Path) (e : Expr) (hw : Traced w) :
    Traced (Evaluation.noting s path e w) :=
  hw.bind fun _ => .bind (fun _ => .cons rfl .nil) fun _ => .pure _

theorem made (c : Closure) : Traced (mark (.made c)) := fun _ => .cons ⟨rfl, rfl⟩ .nil

theorem called (c : Closure) : Traced (mark (.called c)) := fun _ => .cons ⟨rfl, rfl⟩ .nil

theorem method (members : ScopeId) (name : String) (v : Value) :
    Traced (mark (.method members name v)) := fun _ => .cons ⟨rfl, rfl⟩ .nil

end Traced

section Steps

theorem keepsBindings_of_sameScopes (hx : Keeps SameScopes x) : Keeps KeepsBindings x :=
  hx.mono fun m m' h s n v hv => by rwa [show m'.scopes = m.scopes from h]

theorem keepsBindings_define (s : ScopeId) (name : String) (v : Value) :
    Keeps KeepsBindings (define s name v) := by
  intro m t n w hw
  rw [define_apply]
  split
  · exact hw
  · next hfresh =>
    have hn : name ∉ m.scopes.names s := fun hn => hfresh (containsOwn_iff.2 hn)
    have hadds := addsEntries_insert v hn
    have ht : t < m.scopes.size := lt_size_of_mem_names (Bindings.mem_names_iff.2 ⟨w, hw⟩)
    have hview : ((m.scopes.insert s name v).own t).entries = _ := hadds.view_eq t ht
    refine Bindings.find?_eq_some_iff.2 ?_
    rw [finalState, hview]
    exact List.mem_append_left _ (Bindings.find?_eq_some_iff.1 hw)

/-- New scopes change nothing that is bound in others. -/
theorem keepsBindings_of_kept {m m' : Machine} (h : BindingsKept m.scopes m'.scopes) :
    KeepsBindings m m' := by
  intro s n v hv
  rwa [lookupOwn, h.own_eq (lt_size_of_mem_names (Bindings.mem_names_iff.2 ⟨v, hv⟩))]

theorem traced_openChild (own : Bindings Value) : Traced (step (openChild s own)) :=
  .step fun _ => keepsBindings_of_kept kept_addChild

theorem traced_openRoot : Traced (step openRoot) :=
  .step fun _ => keepsBindings_of_kept kept_addRoot

theorem traced_assign (s : ScopeId) (name : String) (v : Value) : Traced (watchAssign s name v) := by
  intro m
  rw [run_watchAssign, assign_apply]
  simp only [watchAssign]
  cases m.scopes.owner? s name with
  | none => exact .cons ⟨rfl, fun _ _ _ => id⟩ .nil
  | some t => exact .cons ⟨rfl, v, rfl⟩ .nil

/-- Whatever is run, its moments account for what becomes of the scopes. -/
theorem compositional_traced : Compositional fun _ {_} => Traced where
  pure := .pure
  bind := .bind
  still hx := .step (keepsBindings_of_sameScopes hx)
  define s name v := .step (keepsBindings_define s name v)
  assign := traced_assign
  openChild _ own _ hk := (traced_openChild own).bind hk
  opened := .opened
  made := .made
  called := .called
  method := .method
  valued _ hw := hw.noting _ _ _
  object _ _ _ _ hf hm :=
    .noting _ _ _ <| traced_openRoot.bind fun members => (Traced.opened _ _ _ _).bind fun _ =>
      (hf members).bind fun _ => (hm members).bind fun _ => .pure _

end Steps

/-- The moments of a program lead from the scopes at its start to those at its end. -/
theorem traced_watch (depth : Nat) (s : ScopeId) (p : Program) : Traced (watch depth s p) :=
  compositional_traced.watch depth s p

end ObjectLang.Evaluation
