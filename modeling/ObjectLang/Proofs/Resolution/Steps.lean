import ObjectLang.Proofs.Resolution.Heap
import ObjectLang.Proofs.Resolution.Records
import ObjectLang.Proofs.Resolution.Watch

/-!
What is shown of steps under observation. A run makes scopes as it goes on, so there is a plan for it
that is known only in the end: all moments that the run passes are good in that plan, and the scopes
that are opened on the way are at the places that are planned for them, however the run ends; and when
it ends with a value, the scopes are in order.
-/

namespace ObjectLang

open Forest Typed

namespace Aim

theorem allows_error {aim : Aim} {e : EvalError}
    (h : e.kind ≠ .arityMismatch ∧ e.kind ≠ .undefinedMember ∧ e.kind ≠ .typeError) :
    aim.Allows (.error e) := by
  cases aim with
  | owners _ _ => trivial
  | arity => exact h.1
  | members => exact h.2.1
  | methods => trivial
  | kinds _ => exact h.2.2

theorem allows_arityMismatch {aim : Aim} (h : aim ≠ .arity) {e : EvalError}
    (he : e.kind = .arityMismatch) : aim.Allows (.error e) := by
  cases aim with
  | owners _ _ | methods => trivial
  | arity => exact absurd rfl h
  | members | kinds _ => exact fun h => nomatch he.symm.trans h

theorem allows_undefinedMember {aim : Aim} (h : aim ≠ .members) {e : EvalError}
    (he : e.kind = .undefinedMember) : aim.Allows (.error e) := by
  cases aim with
  | owners _ _ | methods => trivial
  | arity | kinds _ => exact fun h => nomatch he.symm.trans h
  | members => exact absurd rfl h

theorem allows_typeError {aim : Aim} (h : ¬ aim.Precise) {e : EvalError} (he : e.kind = .typeError) :
    aim.Allows (.error e) := by
  cases aim with
  | owners _ _ | methods => trivial
  | arity | members => exact fun h => nomatch he.symm.trans h
  | kinds _ => exact absurd trivial h

end Aim

/-- What analysis has made of the body of a closure is at its place. Every name that the body uses from
around it has a declaration there, with the type that is recorded for it, and if the closure holds on
to the name, it stands for this declaration. -/
def Closure.Known (aim : Aim) (plan : Plan) (c : Closure) : Prop :=
  ∃ (π : Path) (params : List (String × Ty)) (env : Blocks) (body : List (Typed.Stmt Ty)),
    plan.place c.scope = some π ∧
    aim.Sees (.fn c.name :: π) ⟨(some (.fn c.name :: π), params) :: env, .block body⟩ ∧
    params.map Prod.fst = c.params ∧ eraseBlock body = bareBlock c.body ∧
    ∀ n, UsedFree c.params c.body n → ∃ d, env.find n = some d ∧ BlockRecords n d.2 body ∧
      (c.Captures aim.watched n → plan.Means (plan.chain c.scope) n d)

theorem Closure.Known.extend {aim : Aim} {plan plan' : Plan} {c : Closure} (h : c.Known aim plan)
    (hs : c.scope < plan.size) (he : plan.Extends plan') : c.Known aim plan' := by
  obtain ⟨π, params, env, body, hplace, hat, hparams, hbody, hnames⟩ := h
  refine ⟨π, params, env, body, (he.place_eq hs).trans hplace, hat, hparams, hbody, fun n hu => ?_⟩
  obtain ⟨d, hd, hrecords, hmeans⟩ := hnames n hu
  refine ⟨d, hd, hrecords, fun hc => ?_⟩
  rw [he.chain_eq hs]
  exact he.means (fun _ => Plan.chain_lt hs) (hmeans hc)

/-- Analysis knows the body of a closure that lasts. -/
theorem Closure.Lasts.known {Γ : TypeScopes} {aim : Aim} {plan : Plan} {f : ValueScopes} {c : Closure}
    (h : c.Lasts Γ aim plan f) : c.Known aim plan := by
  obtain ⟨env, β, sig, bs, hlies⟩ := h.lies
  obtain ⟨body, hat, herase, htyped⟩ := hlies.knows
  have hown : (c.params.zip (sig.params.map Ty.prim)).map Prod.fst = c.params :=
    List.map_fst_zip (by simp [hlies.length_eq])
  refine ⟨β, _, env, body, hlies.place_eq, hat, hown, herase, fun n hu => ?_⟩
  have hparams : n ∉ (c.params.zip (sig.params.map Ty.prim)).map Prod.fst := by
    rw [hown]
    exact hu.1
  obtain ⟨d, hd⟩ := BlockHas.exists_find c.body hlies.has hu.2
  have htype := Blocks.lookup_of_find hd
  rw [Blocks.find_cons_of_not_mem hparams] at hd
  exact ⟨d, hd, blockRecords body htyped htype, fun hc => hlies.means n d hc hd⟩

namespace Evaluation

instance (aim : Aim) : Mild aim.Allows where
  divideByZero e he := Aim.allows_error (by simp [he])
  tooDeep := by cases aim <;> trivial
  endless := by cases aim <;> trivial

/-- Where the kinds of values matter, they are looked at to rule out type errors. Otherwise type errors
are allowed. -/
theorem quiet_of_kinds {aim : Aim} {α : Type} {P Q : α → Prop} {x : EvalM α}
    (h : ∀ E, Tolerates E → (∀ e, aim.Allows e → E e) → Quiet E P x)
    (hQ : aim.Precise → Quiet aim.Allows Q x) :
    Quiet aim.Allows (fun a => P a ∧ (aim.Precise → Q a)) x := by
  by_cases hp : aim.Precise
  · have hresult : Quiet (fun _ => True) P x := h _ inferInstance fun _ _ => trivial
    exact ((hQ hp).and hresult).mono fun a ha => ⟨ha.2, fun _ => ha.1⟩
  · have hE : Tolerates aim.Allows := ⟨fun _ => Aim.allows_typeError hp⟩
    exact (h _ hE fun _ => id).mono fun a ha => ⟨ha, fun hp' => absurd hp' hp⟩

/-- A scope is planned with all names that its text declares, and the names that a closure holds on to
are where they are planned: when the closure is made, as far as they are there at all, and whenever it
is called, where its body is known. Methods are bound and planned as such, and not assigned to if this
is what is shown. An expression is known at its place, and its value is of a kind that its type
promises, if this is what is shown. -/
def Moment.Good (aim : Aim) (plan : Plan) : Moment → Prop
  | .opened s _ _ declared => s < plan.size ∧ ∀ n ∈ declared, plan.binds n s = true
  | .made c m => c.scope < plan.size ∧ ∀ n t, c.Captures aim.watched n →
      m.scopes.owner? c.scope n = some t → plan.owner? c.scope n = some t
  | .called c m => c.scope < plan.size ∧ m.scopes.chain c.scope = plan.chain c.scope ∧
      (∀ n, c.Captures aim.watched n → m.scopes.owner? c.scope n = plan.owner? c.scope n) ∧
        c.Known aim plan
  | .method members name v m => members < plan.size ∧ plan.HasMethod members name ∧
    MethodOf members name v ∧ m.scopes.lookupOwn members name = some v
  | .assigned s name _ => s < plan.size ∧ (aim = .methods → ¬ plan.HasMethod s name)
  | .reached _ => True
  | .valued s path e v => s < plan.size ∧ ∃ π t, plan.place s = some π ∧
    aim.Knows (path ++ π) e t ∧ (aim.Precise → t.Includes v)

variable {Γ : TypeScopes} {aim : Aim} {plan plan' : Plan} {f f' : ValueScopes} {α β : Type}

theorem Moment.Good.extend {k : Moment} (h : k.Good aim plan) (he : plan.Extends plan') :
    k.Good aim plan' := by
  cases k with
  | opened s outer path declared =>
    refine ⟨Nat.lt_of_lt_of_le h.1 he.size_le, fun n hn => ?_⟩
    rw [he.binds_eq h.1]
    exact h.2 n hn
  | made c m =>
    refine ⟨Nat.lt_of_lt_of_le h.1 he.size_le, fun n t hn ht => ?_⟩
    rw [he.owner_eq h.1]
    exact h.2 n t hn ht
  | called c m =>
    obtain ⟨hs, hchain, howner, hknown⟩ := h
    refine ⟨Nat.lt_of_lt_of_le hs he.size_le, ?_, fun n hn => ?_, hknown.extend hs he⟩
    · rw [he.chain_eq hs, hchain]
    · rw [he.owner_eq hs, howner n hn]
  | method members name v m =>
    exact ⟨Nat.lt_of_lt_of_le h.1 he.size_le, (he.hasMethod_iff h.1).2 h.2.1, h.2.2⟩
  | assigned s name m =>
    exact ⟨Nat.lt_of_lt_of_le h.1 he.size_le, fun ha hm => h.2 ha ((he.hasMethod_iff h.1).1 hm)⟩
  | reached m => trivial
  | valued s path e v =>
    obtain ⟨hs, π, t, hplace, hvalue⟩ := h
    exact ⟨Nat.lt_of_lt_of_le hs he.size_le, π, t, (he.place_eq hs).trans hplace, hvalue⟩

/-- A scope that is opened for its own block stays where it is. -/
theorem Moment.locate_self {s : ScopeId} {place : ScopeId → Option Path} {declared : List String} :
    (Moment.opened s s [] declared).locate place = place := by
  funext t
  show (if t = s then (place s).map ([] ++ ·) else place t) = place t
  split
  · next h =>
    subst h
    cases place t <;> rfl
  · rfl

/-- A closure that lasts is called with the names that it holds on to where they are planned. -/
theorem Moment.good_called {c : Closure} {m : Machine} (ho : Orderly Γ aim plan m.scopes)
    (hc : c.Lasts Γ aim plan m.scopes) : (Moment.called c m).Good aim plan :=
  ⟨hc.scope_lt, ho.chain_eq c.scope (ho.lt_size.1 hc.scope_lt), fun n hn =>
    (hc.fixed n hn).owner_eq ho.toPlanned (ho.lt_size.1 hc.scope_lt), hc.known⟩

/-- A scope is opened for a text that declares the last names that it is going to have. -/
theorem Moment.good_opened {s outer : ScopeId} {path : Path} {own added : List (String × Ty)}
    {declared : List String} (hs : s < plan.size) (hown : (plan.layout s).own = own ++ added)
    (hnames : added.map Prod.fst = declared) :
    (Moment.opened s outer path declared).Good aim plan := by
  refine ⟨hs, fun n hn => ?_⟩
  rw [Plan.binds_iff, hown, List.map_append, hnames]
  exact List.mem_append_right _ hn

/-- A name that is seen when a closure is made is where it is planned, if it is fixed by then. -/
theorem Moment.good_made {c : Closure} {m : Machine} (ho : Orderly Γ aim plan m.scopes)
    (hc : c.Lasts Γ aim plan m.scopes) : (Moment.made c m).Good aim plan := by
  refine ⟨hc.scope_lt, fun n t hn ht => ?_⟩
  rwa [← (hc.fixed n hn).owner_eq ho.toPlanned (ho.lt_size.1 hc.scope_lt)]

/-- Moments are as foreseen by a plan that goes on from another one: all of them are good, and the
scopes that they open are at their places. -/
structure Foreseen (aim : Aim) (plan plan' : Plan) (ks : List Moment) : Prop where
  extend : plan.Extends plan'
  good : ∀ k ∈ ks, k.Good aim plan'
  locates : ∀ place, plan.Locates place → plan'.Locates (places place ks)

namespace Foreseen

/-- No scope is opened, and so all scopes stay at their places. -/
theorem still {ks : List Moment} (hgood : ∀ k ∈ ks, k.Good aim plan)
    (hstill : ∀ k ∈ ks, ∀ place, k.locate place = place) : Foreseen aim plan plan ks where
  extend := .refl plan
  good := hgood
  locates place h := by
    have heq : places place ks = place := by
      induction ks with
      | nil => rfl
      | cons k ks ih =>
        obtain ⟨hk, hks⟩ := List.forall_mem_cons.1 hstill
        rw [places, List.foldl_cons, hk]
        exact ih (List.forall_mem_cons.1 hgood).2 hks
    rwa [heq]

theorem one {k : Moment} (hgood : k.Good aim plan) (hstill : ∀ place, k.locate place = place) :
    Foreseen aim plan plan [k] :=
  .still (List.forall_mem_singleton.2 hgood) (List.forall_mem_singleton.2 hstill)

/-- Nothing is asked of what a step leads to. -/
theorem step {x : EvalM α} {m : Machine} : Foreseen aim plan plan ((step x).moments m) :=
  .one trivial fun _ => rfl

theorem append {plan'' : Plan} {ks ks' : List Moment} (h : Foreseen aim plan plan' ks)
    (h' : Foreseen aim plan' plan'' ks') : Foreseen aim plan plan'' (ks ++ ks') where
  extend := h.extend.trans h'.extend
  good k hk := (List.mem_append.1 hk).elim (fun hk => (h.good k hk).extend h'.extend) (h'.good k)
  locates place hplace := by
    rw [places, List.foldl_append]
    exact h'.locates _ (h.locates place hplace)

end Foreseen

/-- From scopes in order, a run passes moments that are foreseen, fails in a way that is allowed, or
ends with a result in `Q` and with scopes in order. -/
def Sound (Γ : TypeScopes) (aim : Aim) (plan : Plan) (f : ValueScopes)
    (Q : Plan → ValueScopes → α → Prop) (w : Watched α) : Prop :=
  ∀ m, m.scopes = f → ∃ plan', Foreseen aim plan plan' (w.moments m) ∧
    Ends (fun a m' => Orderly Γ aim plan' m'.scopes ∧ Grows plan f plan' m'.scopes ∧
      Q plan' m'.scopes a) aim.Allows (w.run m)

section Rules

variable {P Q : Plan → ValueScopes → α → Prop} {S : Plan → ValueScopes → β → Prop}
  {w : Watched α} {g : α → Watched β}

theorem Sound.mono (hw : Sound Γ aim plan f P w)
    (h : ∀ plan' f' a, Orderly Γ aim plan' f' → Grows plan f plan' f' → P plan' f' a →
      Q plan' f' a) : Sound Γ aim plan f Q w := by
  intro m hm
  obtain ⟨plan', hseen, hends⟩ := hw m hm
  exact ⟨plan', hseen, hends.mono fun a m' _ ⟨ho, hg, hP⟩ => ⟨ho, hg, h _ _ _ ho hg hP⟩⟩

theorem Sound.bind (hw : Sound Γ aim plan f P w)
    (hg : ∀ plan' f' a, Orderly Γ aim plan' f' → Grows plan f plan' f' → P plan' f' a →
      Sound Γ aim plan' f' S (g a)) : Sound Γ aim plan f S (w >>= g) := by
  intro m hm
  obtain ⟨plan₁, hseen₁, hends₁⟩ := hw m hm
  cases hr : w.run m with
  | error e m₁ =>
    rw [hr] at hends₁
    refine ⟨plan₁, ?_, ?_⟩
    · rwa [moments_bind, hr, List.append_nil]
    · rw [run_bind, bind_apply, hr]
      exact hends₁
  | ok a m₁ =>
    rw [hr] at hends₁
    obtain ⟨ho₁, hg₁, hP⟩ := hends₁
    obtain ⟨plan₂, hseen₂, hends₂⟩ := hg plan₁ m₁.scopes a ho₁ hg₁ hP m₁ rfl
    refine ⟨plan₂, ?_, ?_⟩
    · rw [moments_bind, hr]
      exact hseen₁.append hseen₂
    · rw [run_bind, bind_apply, hr]
      exact hends₂.mono fun b m' _ ⟨ho₂, hg₂, hS⟩ => ⟨ho₂, hg₁.trans hg₂, hS⟩

/-- A last step is one that nothing comes after. -/
theorem Sound.last (hw : Sound Γ aim plan f P (w >>= fun a => pure a)) : Sound Γ aim plan f P w := by
  intro m hm
  obtain ⟨plan', hseen, hends⟩ := hw m hm
  have hmoments : (w >>= fun a => pure a).moments m = w.moments m := by
    rw [moments_bind]
    cases w.run m <;> exact List.append_nil _
  rw [hmoments] at hseen
  refine ⟨plan', hseen, ?_⟩
  rw [run_bind, bind_apply] at hends
  cases hr : w.run m <;> rwa [hr] at hends

/-- What is known of the scopes after all runs is known after sound ones. -/
theorem Sound.frame {R : ValueScopes → ValueScopes → Prop} (hw : Sound Γ aim plan f P w)
    (hR : ∀ m a m', w.run m = .ok a m' → R m.scopes m'.scopes) :
    Sound Γ aim plan f (fun plan' f' a => P plan' f' a ∧ R f f') w := by
  intro m hm
  obtain ⟨plan', hseen, hends⟩ := hw m hm
  exact ⟨plan', hseen,
    hends.mono fun a m' hr ⟨ho, hg, hP⟩ => ⟨ho, hg, hP, hm ▸ hR m a m' hr⟩⟩

end Rules

section Steps

variable {P : α → Prop} {Q : Plan → ValueScopes → α → Prop} {S : Plan → ValueScopes → β → Prop}
  {x : EvalM α} {g : α → Watched β} {s : ScopeId} {name : String} {v : Value}

theorem Sound.fail {e : EvalError} (h : aim.Allows (.error e)) :
    Sound Γ aim plan f Q (step (Evaluation.fail e)) :=
  fun _ _ => ⟨plan, .step, h⟩

theorem Sound.tooDeep : Sound Γ aim plan f Q (step (throw .tooDeep)) :=
  fun _ _ => ⟨plan, .step, Mild.tooDeep (E := aim.Allows)⟩

theorem Sound.pure (ho : Orderly Γ aim plan f) {a : α} (h : Q plan f a) :
    Sound Γ aim plan f Q (pure a : Watched α) :=
  fun _ hm => ⟨plan, .still (List.forall_mem_nil _) (List.forall_mem_nil _), hm ▸ ho,
    hm ▸ .refl plan f, hm ▸ h⟩

/-- A moment that is good and opens no scope is noted. -/
theorem Sound.mark (ho : Orderly Γ aim plan f) {moment : Machine → Moment} {g : Unit → Watched β}
    (h : ∀ m, m.scopes = f → (moment m).Good aim plan)
    (hstill : ∀ m place, (moment m).locate place = place) (hg : Sound Γ aim plan f S (g ())) :
    Sound Γ aim plan f S (mark moment >>= g) := by
  refine .bind (P := fun plan' f' _ => plan' = plan ∧ f' = f) (fun m hm => ?_) ?_
  · exact ⟨plan, .one (h m hm) (hstill m), hm ▸ ho, hm ▸ .refl plan f, rfl, hm⟩
  · rintro _ _ _ _ _ ⟨rfl, rfl⟩
    exact hg

/-- The value of an expression is noted with a type that is known for it. -/
theorem Sound.noting {π path : Path} {e : Expr} {t : Ty} {w : Watched Value}
    {Q : Plan → ValueScopes → Value → Prop} (hs : s < plan.size) (hplace : plan.place s = some π)
    (hknows : aim.Knows (path ++ π) e t) (hQ : ∀ plan' f' v, Q plan' f' v → aim.Precise → t.Includes v)
    (hw : Sound Γ aim plan f Q w) : Sound Γ aim plan f Q (noting s path e w) :=
  hw.bind fun _ _ _ ho hg hv => .mark ho (fun _ _ =>
    ⟨Nat.lt_of_lt_of_le hs hg.extend.size_le, π, t, (hg.extend.place_eq hs).trans hplace, hknows,
      hQ _ _ _ hv⟩) (fun _ _ => rfl) (.pure ho hv)

/-- A step changes the scopes in one way only, if it does not fail. -/
theorem Sound.change {a : α} (hx : ∀ m, m.scopes = f →
      Ends (fun b m' => b = a ∧ m'.scopes = f') aim.Allows (x m))
    (ho : Orderly Γ aim plan f') (hgrows : Grows plan f plan f')
    (hg : Sound Γ aim plan f' S (g a)) : Sound Γ aim plan f S (step x >>= g) := by
  refine .bind (P := fun plan₁ f₁ b => plan₁ = plan ∧ f₁ = f' ∧ b = a) (fun m hm => ?_) ?_
  · refine ⟨plan, .step, (hx m hm).mono ?_⟩
    rintro b m' _ ⟨hb, hm'⟩
    exact ⟨hm' ▸ ho, hm' ▸ hgrows, rfl, hm', hb⟩
  · rintro _ _ _ _ _ ⟨rfl, rfl, rfl⟩
    exact hg

/-- A scope is opened for a text that is found from the block of another one. -/
theorem Sound.opening {x : EvalM ScopeId} {outer : ScopeId} {π path : Path} {declared : List String}
    {l : Layout} {hlt : ∀ u ∈ l.outer, u < plan.size} {hhome : ∀ u ∈ l.outer, plan.home u = l.home}
    {g : ScopeId → Watched β} (hsize : plan.size = f.size) (houter : outer < plan.size)
    (hplace : plan.place outer = some π) (hl : l.place = some (path ++ π))
    (hdeclared : ∀ n ∈ declared, n ∈ l.own.map Prod.fst)
    (hx : ∀ m, m.scopes = f → x m = .ok f.size { m with scopes := f' })
    (hgrows : Grows plan f (plan.push l hlt hhome) f')
    (hg : Sound Γ aim (plan.push l hlt hhome) f' S (g f.size)) :
    Sound Γ aim plan f S (do
      let inner ← step x
      Evaluation.mark fun _ => .opened inner outer path declared
      g inner) := by
  have hopened (k : Machine) : Foreseen aim plan (plan.push l hlt hhome)
      [.reached k, .opened f.size outer path declared] := by
    refine ⟨Plan.extends_push, ?_, fun place hlocates t ht => ?_⟩
    · refine List.forall_mem_cons.2 ⟨trivial, List.forall_mem_singleton.2 ⟨?_, fun n hn => ?_⟩⟩
      · exact hsize ▸ Nat.lt_succ_self _
      rw [Plan.binds_iff, ← hsize, Plan.layout_push]
      exact hdeclared n hn
    · show (if t = f.size then (place outer).map (path ++ ·) else place t) = _
      split
      · next h => rw [hlocates outer houter, hplace, h, ← hsize, Plan.place, Plan.layout_push, hl]; rfl
      · next h =>
        have ht : t < plan.size := Nat.lt_of_le_of_ne (Nat.le_of_lt_succ ht) (hsize ▸ h)
        rw [hlocates t ht, Plan.extends_push.place_eq ht]
  intro m hm
  obtain ⟨plan', hseen, hends⟩ := hg { m with scopes := f' } rfl
  refine ⟨plan', ?_, ?_⟩
  · rw [moments_bind, run_step, hx m hm]
    exact (hopened _).append hseen
  · rw [run_bind, run_step, bind_apply, hx m hm]
    refine hends.mono ?_
    rintro b m' - ⟨ho, hg, hS⟩
    exact ⟨ho, hgrows.trans hg, hS⟩

section Reading

variable (ho : Orderly Γ aim plan f)
include ho

/-- A step only reads the scopes. -/
theorem Sound.read (hx : ∀ m, m.scopes = f → Ends (fun a m' => P a ∧ m'.scopes = f) aim.Allows (x m))
    (hg : ∀ a, P a → Sound Γ aim plan f S (g a)) : Sound Γ aim plan f S (step x >>= g) := by
  refine .bind (P := fun plan₁ f₁ a => plan₁ = plan ∧ f₁ = f ∧ P a) (fun m hm => ?_) ?_
  · refine ⟨plan, .step, (hx m hm).mono ?_⟩
    rintro a m' _ ⟨ha, hm'⟩
    exact ⟨hm' ▸ ho, hm' ▸ .refl plan f, rfl, hm', ha⟩
  · rintro _ _ a _ _ ⟨rfl, rfl, ha⟩
    exact hg a ha

theorem Sound.quiet (hx : Quiet aim.Allows P x) (hg : ∀ a, P a → Sound Γ aim plan f S (g a)) :
    Sound Γ aim plan f S (step x >>= g) :=
  .read ho (fun m hm => hm ▸ hx m) hg

theorem Sound.lookup {g : Option Value → Watched β}
    (hg : ∀ v, f.lookup s name = v → Sound Γ aim plan f S (g v)) :
    Sound Γ aim plan f S (step (Evaluation.lookup s name) >>= g) :=
  .read ho (fun _ hm => hm ▸ ⟨rfl, rfl⟩) hg

theorem Sound.requireFresh {g : Unit → Watched β}
    (hg : name ∉ f.names s → Sound Γ aim plan f S (g ())) :
    Sound Γ aim plan f S (step (Evaluation.requireFresh s name) >>= g) := by
  refine .read (P := fun _ => name ∉ f.names s) ho (fun m hm => ?_) fun _ => hg
  rw [requireFresh_apply]
  split
  · exact Aim.allows_error (by simp [EvalError.kind])
  · next hn => exact ⟨fun h => hn (hm ▸ containsOwn_iff.2 h), hm⟩

theorem Sound.requireBound {g : Unit → Watched β} (hg : Sound Γ aim plan f S (g ())) :
    Sound Γ aim plan f S (step (Evaluation.requireBound s name) >>= g) := by
  refine .read (P := fun _ => True) ho (fun m hm => ?_) fun _ _ => hg
  rw [requireBound_apply]
  split
  · exact ⟨trivial, hm⟩
  · exact Aim.allows_error (by simp [EvalError.kind])

theorem Sound.requireMember {g : Unit → Watched β} (hn : aim = .members → name ∈ f.names s)
    (hg : name ∈ f.names s → Sound Γ aim plan f S (g ())) :
    Sound Γ aim plan f S (step (Evaluation.requireMember s name) >>= g) := by
  refine .read (P := fun _ => name ∈ f.names s) ho (fun m hm => ?_) fun _ => hg
  rw [requireMember_apply]
  split
  · next h => exact ⟨hm ▸ containsOwn_iff.1 h, hm⟩
  · next h =>
    exact Aim.allows_undefinedMember (fun ha => h (containsOwn_iff.2 (hm ▸ hn ha))) rfl

theorem Sound.member {g : Value → Watched β} (hn : aim = .members → name ∈ f.names s)
    (hg : ∀ v, f.lookupOwn s name = some v → Sound Γ aim plan f S (g v)) :
    Sound Γ aim plan f S (step (Evaluation.member s name) >>= g) := by
  refine .read (P := fun v => f.lookupOwn s name = some v) ho (fun m hm => ?_) hg
  rw [member_apply]
  split
  · next v hv => exact ⟨hm ▸ hv, hm⟩
  · next hv =>
    refine Aim.allows_undefinedMember (fun ha => ?_) rfl
    obtain ⟨v, hv'⟩ := Orderly.names_iff.1 (hn ha)
    rw [hm, hv'] at hv
    cases hv

end Reading

theorem Sound.define {g : Unit → Watched β} (ho : Orderly Γ aim plan (f.insert s name v))
    (hs : s < f.size) (hg : Sound Γ aim plan (f.insert s name v) S (g ())) :
    Sound Γ aim plan f S (step (Evaluation.define s name v) >>= g) := by
  refine .change (fun m hm => ?_) ho (grows_insert hs) hg
  rw [define_apply]
  split
  · exact Aim.allows_error (by simp [EvalError.kind])
  · exact ⟨rfl, by rw [hm]⟩

theorem Sound.assign {g : Unit → Watched β} (hg : ∀ t, f.owner? s name = some t →
      Orderly Γ aim plan (f.insert t name v) ∧ t < f.size ∧
        (aim = .methods → ¬ plan.HasMethod t name) ∧ Sound Γ aim plan (f.insert t name v) S (g ())) :
    Sound Γ aim plan f S (watchAssign s name v >>= g) := by
  refine .bind (P := fun plan₁ f₁ _ => ∃ t, f.owner? s name = some t ∧ plan₁ = plan ∧
    f₁ = f.insert t name v) (fun m hm => ?_) ?_
  · subst hm
    cases ht : m.scopes.owner? s name with
    | none =>
      have hmoments : (watchAssign s name v).moments m = [.reached m] := by
        simp only [watchAssign, ht]
      refine ⟨plan, hmoments ▸ .one trivial fun _ => rfl, ?_⟩
      rw [run_watchAssign, assign_apply, ht]
      exact Aim.allows_error (by simp [EvalError.kind])
    | some t =>
      obtain ⟨ho, htlt, hunplanned, -⟩ := hg t ht
      have hmoments : (watchAssign s name v).moments m =
          [.assigned t name { m with scopes := m.scopes.insert t name v }] := by
        simp only [watchAssign, ht]
      have hsize : t < plan.size := by rwa [ho.size_eq, size_insert]
      refine ⟨plan, hmoments ▸ .one ⟨hsize, hunplanned⟩ fun _ => rfl, ?_⟩
      rw [run_watchAssign, assign_apply, ht]
      exact ⟨ho, grows_insert htlt, t, rfl, rfl, rfl⟩
  · rintro _ _ _ _ _ ⟨t, ht, rfl, rfl⟩
    exact (hg t ht).2.2.2

/-- A block gets a scope of its own. -/
theorem Sound.openChild {own : Bindings Value} {outer : ScopeId} {π path : Path}
    {declared : List String} {Q : Plan → ValueScopes → ScopeId → Prop} (ho : Orderly Γ aim plan f)
    (hs : s < plan.size) (houter : outer < plan.size) (hplace : plan.place outer = some π)
    (ts : List (String × Ty)) (hdeclared : ∀ n ∈ declared, n ∈ ts.map Prod.fst)
    (hown : ∀ e ∈ own.entries, e.2.Lasts Γ aim plan f ∧ ∃ t, Bindings.findIn e.1 ts = some t ∧
      (aim.Typed → e.2.Fits Γ aim plan f (plan.home s) false t))
    (hQ : Grows plan f (plan.addChild s hs ts (some (path ++ π))) (f.addChild s own) →
      Q (plan.addChild s hs ts (some (path ++ π))) (f.addChild s own) f.size) :
    Sound Γ aim plan f Q (watchOpen s own outer path declared) := by
  obtain ⟨ho', hgrows⟩ := orderly_addChild ho hs ts (some (path ++ π)) hown
  refine .opening ho.size_eq houter hplace rfl hdeclared (fun m hm => ?_) hgrows
    (.pure ho' (hQ hgrows))
  rw [openChild_apply, hm]

/-- The members of an object get a scope of their own. -/
theorem Sound.openRoot {g : ScopeId → Watched β} {π path : Path} {declared : List String}
    (ho : Orderly Γ aim plan f) (hs : s < plan.size) (hplace : plan.place s = some π)
    {ts : List (String × Ty)} {o : ScopeId} (hts : ListsMembers Γ ts o)
    (hdeclared : ∀ n ∈ declared, n ∈ ts.map Prod.fst)
    (hg : Orderly Γ aim (plan.addRoot ts (some o) (some (path ++ π))) (f.addRoot ∅) →
      Sound Γ aim (plan.addRoot ts (some o) (some (path ++ π))) (f.addRoot ∅) S (g f.size)) :
    Sound Γ aim plan f S (do
      let members ← step Evaluation.openRoot
      Evaluation.mark fun _ => .opened members s path declared
      g members) := by
  obtain ⟨ho', hgrows⟩ := orderly_addRoot ho hts (some (path ++ π))
  refine .opening ho.size_eq hs hplace rfl hdeclared (fun m hm => ?_) hgrows (hg ho')
  rw [openRoot_apply, hm]

end Steps

end Evaluation

end ObjectLang
