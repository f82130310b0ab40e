import ObjectLang.Proofs.Scope.Growth
import ObjectLang.Proofs.Steps

/-!
The steps of a run. `Leads` says from which states a run leads to which, and which errors can end it;
`Reaches` says to which steps a run comes, and in which states. No step catches the error of another,
so what is known of the errors of a run is known of all steps that it comes to.
-/

namespace ObjectLang

variable {ε σ α β γ : Type} {I J K : σ → Prop} {E : ε → Prop} {R : σ → σ → Prop}
  {x : EStateM ε σ α} {f : α → EStateM ε σ β} {y : EStateM ε σ γ} {s t : σ}

/-- From every state in `I`, a run ends in a state in `J` or with an error in `E`. -/
def Leads (I J : σ → Prop) (E : ε → Prop) (x : EStateM ε σ α) : Prop :=
  ∀ s, I s → Ends (fun _ => J) E (x s)

theorem Leads.pure (a : α) : Leads I I E (pure a : EStateM ε σ α) := fun _ => id

theorem Leads.throw {e : ε} (he : E e) : Leads I J E (throw e : EStateM ε σ α) := fun _ _ => he

theorem Leads.bind (hx : Leads I J E x) (hf : ∀ a, Leads J K E (f a)) : Leads I K E (x >>= f) :=
  fun s hs => (hx s hs).bind fun a s' _ => hf a s'

/-- What all steps of a run keep holds after it. -/
theorem Leads.and_keeps (hx : Leads I J E x) (hk : Keeps R x)
    (hR : ∀ s t, R s t → I s → K s → K t) :
    Leads (fun s => I s ∧ K s) (fun s => J s ∧ K s) E x :=
  fun s ⟨hI, hK⟩ => (hx s hI).mono fun _ s' hs hJ => ⟨hJ, hR s s' (hk.of_ok hs) hI hK⟩

/-- A run of a sequence of steps from a state comes to the step `y` in the state `t`. -/
inductive Reaches (y : EStateM ε σ γ) (t : σ) : {α : Type} → EStateM ε σ α → σ → Prop where
  | here : Reaches y t y t
  | first {α β : Type} {x : EStateM ε σ α} {f : α → EStateM ε σ β} {s : σ} :
      Reaches y t x s → Reaches y t (x >>= f) s
  | next {α β : Type} {x : EStateM ε σ α} {f : α → EStateM ε σ β} {s s' : σ} {a : α} :
      x s = .ok a s' → Reaches y t (f a) s' → Reaches y t (x >>= f) s

/-- A run ends with the error of the step that it comes to. -/
theorem Reaches.error_eq (h : Reaches y t x s) {e : ε} {t' : σ} (hy : y t = .error e t') :
    x s = .error e t' := by
  induction h with
  | here => exact hy
  | first _ ih => rw [bind_apply, ih]
  | next hx _ ih =>
    rw [bind_apply, hx]
    exact ih

theorem Leads.of_reaches (hx : Leads I J E x) (hs : I s) (h : Reaches y t x s) {e : ε} {t' : σ}
    (hy : y t = .error e t') : E e := by
  have hends := hx s hs
  rw [h.error_eq hy] at hends
  exact hends

/-- Names that do not repeat can be defined one after another in a scope that is new, whichever state
has the scopes in it. -/
theorem forM_define {define : ScopeId → String → α → EStateM ε σ Unit} {state : Forest α → σ}
    (hdefine : ∀ f s name v, name ∉ f.names s →
      define s name v (state f) = .ok () (state (f.insert s name v)))
    (f : Forest α) (parent : ScopeId) (own b : Bindings α) {es : List (String × α)}
    (hown : own.entries = b.entries ++ es) :
    (forM es fun e => define f.size e.1 e.2) (state (f.addChild parent b)) =
      .ok () (state (f.addChild parent own)) := by
  induction es generalizing b with
  | nil =>
    obtain rfl : own = b := Bindings.ext_entries (by rw [hown, List.append_nil])
    rfl
  | cons e es ih =>
    have hname : e.1 ∉ b.names := by
      have hnodup := own.names_nodup
      rw [hown, List.map_append, List.nodup_append] at hnodup
      exact fun hmem => hnodup.2.2 _ hmem _ (List.mem_cons_self ..) rfl
    have hfresh : e.1 ∉ (f.addChild parent b).names f.size := by
      rwa [Forest.names, Forest.own_addChild, if_pos rfl]
    have hinsert : own.entries = (b.insert e.1 e.2).entries ++ es := by
      rw [Bindings.entries_insert e.2 hname, hown, List.append_assoc]
      rfl
    rw [List.forM_cons, bind_apply, hdefine _ _ _ _ hfresh, Forest.insert_addChild]
    exact ih _ hinsert

end ObjectLang
