import ObjectLang.Proofs.Resolution.Blocks
import ObjectLang.Proofs.Resolution.Steps
import ObjectLang.Proofs.Scoping.Evaluation

/-!
Programs that obey the rules resolve every name that is held on to in one place, and where types
matter they get values that fit. Each step is shown to be sound; a call goes to a body in a scope that
was planned when its closure was made.
-/

namespace ObjectLang.Evaluation

open Forest
open Typed (Env Blocks OperatorTyped)

/-- Some name stands for a function. -/
def HasFunction (env : Env) : Prop := ∃ n t, env.lookup n = some t ∧ t.IsFn

/-- A value that lasts, of a kind that its type promises. In a place inside of `home` it also fits its
type if it is `attached`, and if it is a function then there is a name for one. -/
structure Valued (Γ : TypeScopes) (aim : Aim) (home : ScopeId) (env : Env) (attached : Prop) (t : Ty)
    (plan : Plan) (f : ValueScopes) (v : Value) : Prop where
  lasts : v.Lasts Γ aim plan f
  fits : aim.Typed → attached → v.Fits Γ aim plan f home false t ∧ (t.IsFn → HasFunction env)
  includes : aim.Precise → t.Includes v

/-- What a function gives back: a value that lasts, of a kind that its type promises. -/
structure Returned (Γ : TypeScopes) (aim : Aim) (t : Ty) (plan : Plan) (f : ValueScopes) (v : Value) :
    Prop where
  lasts : v.Lasts Γ aim plan f
  includes : aim.Precise → t.Includes v

/-- How a text ends that obeys the rules. -/
structure Ended (Γ : TypeScopes) (aim : Aim) (returns : Option Ty) (must : Prop) (plan : Plan)
    (f : ValueScopes) (c : Completion) : Prop where
  lasts : c.value.Lasts Γ aim plan f
  obeys : aim.Precise → c.Obeys returns must

/-- At a given depth, an expression gives a value of its type, but for members taken off objects. -/
def ExprSound (Γ : TypeScopes) (aim : Aim) (depth : Nat) : Prop :=
  ∀ s β path e plan f env t, Orderly Γ aim plan f → s < plan.size → plan.place s = some β →
    e.Has Γ aim env (path ++ β) t → e.Every aim.Permits (Lasting aim.watched) →
    Resolves aim plan f s env.env e.Uses (fun _ => False) →
    Sound Γ aim plan f (Valued Γ aim (plan.home s) env.env (¬ e.Detaches t) t)
      (watchExpr depth s path e)

/-- At a given depth, a statement binds names as planned. -/
def StmtSound (Γ : TypeScopes) (aim : Aim) (depth : Nat) : Prop :=
  ∀ s β path st plan f env returns own as rest, Orderly Γ aim plan f →
    Stands aim plan f s env β own (as ++ rest) st.Uses st.Assigns (st.Captures aim.watched) →
    st.Has Γ aim ((some β, own) :: env) β (path ++ β) returns as →
    st.Every aim.Permits (Lasting aim.watched) →
    (∀ n, st.Captures aim.watched n → n ∉ rest.map Prod.fst) →
    Sound Γ aim plan f (Ended Γ aim returns st.Returns) (watchStmt depth s path st)

variable {Γ : TypeScopes} {aim : Aim} {plan : Plan} {f : ValueScopes} {s members o : ScopeId}
  {types : Env} {env : Blocks} {β π path : Path} {returns : Option Ty}
  {own as bs fields methods : List (String × Ty)} {t : Ty} {depth : Nat} {v : Value}

/-- Values of primitive types fit if they are of the right kind. -/
theorem Returned.valued {home : ScopeId} {attached : Prop} (h : Returned Γ aim t plan f v)
    (ht : aim.Typed → ∃ p, t = .prim p) : Valued Γ aim home types attached t plan f v := by
  refine ⟨h.lasts, fun ha _ => ?_, h.includes⟩
  obtain ⟨p, rfl⟩ := ht ha
  exact ⟨h.includes, fun hfn => absurd hfn Ty.not_isFn_prim⟩

/-- What asks for a value of some type gets one that fits, unless a member is taken off its object
there. -/
theorem Valued.of_isSubtype {home : ScopeId} {e : Expr} {u : Ty}
    (h : Valued Γ aim home types (¬ e.Detaches u) u plan f v) (hsub : u.isSubtype Γ t = true) :
    Valued Γ aim home types (¬ e.Detaches t) t plan f v := by
  have hincludes (hp : aim.Precise) : t.Includes v := (h.includes hp).of_isSubtype hsub
  refine ⟨h.lasts, fun ha hd => ?_, hincludes⟩
  cases t with
  | prim p => exact ⟨hincludes, fun hfn => absurd hfn Ty.not_isFn_prim⟩
  | fn params returns =>
    obtain ⟨hfits, hnamed⟩ := h.fits ha fun hd' => hd ⟨⟨params, returns, rfl⟩, hd'.2⟩
    exact ⟨hfits.of_isSubtype hsub, fun hfn => hnamed (Ty.isFn_of_isSubtype hsub hfn)⟩
  | object o =>
    cases Ty.matches_of_equiv (Ty.equiv_of_isSubtype hsub nofun) with
    | object hn hm =>
      obtain ⟨hfits, -⟩ := h.fits ha fun hd => Ty.not_isFn_object hd.1
      exact ⟨hfits.of_isSubtype hsub, fun hfn => absurd hfn Ty.not_isFn_object⟩

/-- An object is no function, so it is what its type says. -/
theorem Valued.realizes {home : ScopeId} {e : Expr} {name : Option String}
    (h : Valued Γ aim home types (¬ e.Detaches (.object o)) (.object o) plan f
      (.object name members)) (ha : aim.Typed) : Realizes Γ plan f members o :=
  (h.fits ha fun hd => Ty.not_isFn_object hd.1).1.realizes

section Definitions

variable {m : Machine} {k : Moment} {isMethod : Bool} {d : DefDecl} {ds : List DefDecl}

/-- A definition notes its closure right after it is bound. -/
theorem moments_watchDef (h : k ∈ (watchDef s isMethod d).moments m) :
    (∃ m', k = .reached m') ∨ ∃ c, Closure.ofDecl s isMethod d = .ok c ∧
      d.name ∉ m.scopes.names s ∧
      k = .made c { m with scopes := m.scopes.insert s d.name (.function (.closure c)) } := by
  obtain h | ⟨_, m₁, hfresh, h⟩ := mem_moments_bind.1 h
  · exact Or.inl ⟨_, List.mem_singleton.1 h⟩
  rw [run_step, requireFresh_apply] at hfresh
  split at hfresh
  · cases hfresh
  · next hn =>
    cases hfresh
    cases hc : Closure.ofDecl s isMethod d with
    | error param =>
      rw [hc] at h
      exact Or.inl ⟨_, List.mem_singleton.1 h⟩
    | ok c =>
      simp only [hc] at h
      obtain h | ⟨_, m₂, hdefine, h⟩ := mem_moments_bind.1 h
      · exact Or.inl ⟨_, List.mem_singleton.1 h⟩
      rw [run_step, define_apply, if_neg hn] at hdefine
      cases hdefine
      obtain h | ⟨_, _, _, h⟩ := mem_moments_bind.1 h
      · exact Or.inr ⟨c, rfl, fun hmem => hn (containsOwn_iff.2 hmem), List.mem_singleton.1 h⟩
      · cases h

/-- A method that has been made is bound to its name. -/
theorem methodOf_execDef {v : Value} {m' : Machine} (hlt : members < m.scopes.size)
    (h : execDef members true d m = .ok v m') :
    MethodOf members d.name v ∧ m'.scopes.lookupOwn members d.name = some v := by
  obtain ⟨_, m₁, hfresh, h⟩ := bind_eq_ok.1 h
  rw [requireFresh_apply] at hfresh
  split at hfresh
  · cases hfresh
  · next hn =>
    cases hfresh
    cases hc : Closure.ofDecl members true d with
    | error param =>
      rw [hc] at h
      cases h
    | ok c =>
      simp only [hc] at h
      obtain ⟨_, m₂, hdefine, h⟩ := bind_eq_ok.1 h
      rw [define_apply, if_neg hn] at hdefine
      cases hdefine
      cases h
      exact ⟨⟨d, c, rfl, hc, rfl⟩, by rw [lookupOwn_insert_eq hlt, if_pos ⟨rfl, rfl⟩]⟩

/-- The methods of an object are made one after another, and nothing else happens meanwhile. -/
theorem moments_watchMethods (hlt : members < m.scopes.size)
    (h : k ∈ (watchMethods members ds).moments m) :
    (∃ m', k = .reached m') ∨ ∃ d ∈ ds, (∃ v m', k = .method members d.name v m' ∧
        MethodOf members d.name v ∧ m'.scopes.lookupOwn members d.name = some v) ∨
      ∃ c m', Closure.ofDecl members true d = .ok c ∧ k = .made c m' ∧
        m'.scopes.chain members = m.scopes.chain members ∧
        ∀ n ∈ m'.scopes.names members, n ∈ m.scopes.names members ∨ n ∈ ds.map DefDecl.name := by
  induction ds generalizing m with
  | nil => cases h
  | cons d ds ih =>
    obtain h | ⟨v, m₁, hr, h⟩ := mem_moments_bind.1 h
    · obtain ⟨m', rfl⟩ | ⟨c, hc, -, rfl⟩ := moments_watchDef h
      · exact Or.inl ⟨m', rfl⟩
      refine Or.inr ⟨d, List.mem_cons_self .., Or.inr ⟨c, _, hc, rfl, chain_insert .., ?_⟩⟩
      intro n hn
      obtain ⟨w, hw⟩ := Orderly.names_iff.1 hn
      rcases lookupOwn_insert hw with hw | ⟨-, rfl, -⟩
      · exact Or.inl (Orderly.names_iff.2 ⟨w, hw⟩)
      · exact Or.inr (List.mem_cons_self ..)
    rw [run_watchDef] at hr
    obtain h | ⟨_, _, hmark, h⟩ := mem_moments_bind.1 h
    · exact Or.inr ⟨d, List.mem_cons_self .., Or.inl ⟨v, m₁, List.mem_singleton.1 h,
        methodOf_execDef hlt hr⟩⟩
    · cases hmark
      have ha := (declares_execDef members true d).of_ok hr
      have hview : m₁.scopes.names members = m.scopes.names members ++ [d.name] := by
        simpa [names] using ha.view_eq members hlt
      refine (ih (Nat.lt_of_lt_of_le hlt ha.size_le) h).imp_right ?_
      rintro ⟨d', hd', hmethod | ⟨c, m', hc, rfl, hchain, hnames⟩⟩
      · exact ⟨d', List.mem_cons_of_mem _ hd', Or.inl hmethod⟩
      · refine ⟨d', List.mem_cons_of_mem _ hd', Or.inr ⟨c, m', hc, rfl, ?_, fun n hn => ?_⟩⟩
        · rw [hchain, chain, ha.outer_eq members hlt, chain]
        · have hn := hnames n hn
          rw [hview, List.mem_append, List.mem_singleton, or_assoc] at hn
          rwa [List.map_cons, List.mem_cons]

/-- A function is bound to its name, and lasts from then on. -/
theorem sound_def {b : String × Ty} {rest : List (String × Ty)} (ho : Orderly Γ aim plan f)
    (h : Stands aim plan f s env β own (b :: rest) (Stmt.defStmt d).Uses (Stmt.defStmt d).Assigns
      ((Stmt.defStmt d).Captures aim.watched))
    (hd : d.Has Γ aim ((some β, own ++ [b]) :: env) (.fn d.name :: β) b)
    (he : d.Every aim.Permits (Lasting aim.watched))
    (hrest : ∀ n, (Stmt.defStmt d).Captures aim.watched n → n ∉ rest.map Prod.fst) :
    Sound Γ aim plan f (fun plan' f' v => v.Lasts Γ aim plan' f') (watchDef s false d) := by
  have hs : s < f.size := ho.lt_size.1 h.own_lt
  apply Sound.requireFresh ho
  intro hn
  cases hc : Closure.ofDecl s false d with
  | error param => exact .fail (Aim.allows_error (by simp [EvalError.kind]))
  | ok c =>
    have htype : plan.type? s d.name = some b.2 := h.type_eq rfl hd.name_eq hn
    have ha : AddsNames s ([b].map Prod.fst) f (f.insert s d.name (.function (.closure c))) := by
      simpa [hd.name_eq] using (addsEntries_insert (Value.function (.closure c)) hn).names
    have hstands : Stands aim plan (f.insert s d.name (.function (.closure c))) s env β (own ++ [b])
        rest d.Uses d.Assigns ((Stmt.defStmt d).Captures aim.watched) := by
      refine (h.grow rfl ho.toPlanned (grows_insert hs) ha).imp (fun n hnew hu => ?_)
        (fun n hnew hn => ?_) fun _ => id
      all_goals
        obtain ⟨name, params, annotations, returnType, body⟩ := d
        have hne : name ≠ n := fun heq => hnew (List.mem_map.2 ⟨b, by simp, hd.1.trans heq⟩)
      · exact ⟨hne, hu⟩
      · exact ⟨hne, hn⟩
    have hlasts : c.Lasts Γ aim plan (f.insert s d.name (.function (.closure c))) :=
      hstands.lasts hd he hc htype hrest
    have hvalue : (Value.function (.closure c)).Lasts Γ aim plan
        (f.insert s d.name (.function (.closure c))) :=
      fun c' hc' => List.mem_singleton.1 hc' ▸ hlasts
    have ho' := orderly_insert ho hs htype hvalue fun _ =>
      closure_fits hd hc h.own_lt htype (by simp) (by rw [h.object_eq]; rfl)
    exact .define ho' hs (.mark ho' (fun m hm => Moment.good_made (hm ▸ ho') (hm ▸ hlasts))
      (fun _ _ => rfl) (.pure ho' hvalue))

section Methods

variable (ho : Orderly Γ aim plan f) (hm : Houses plan f members o π fields methods fields)
  (hown : (Γ.own o).entries = fields ++ methods ++ [(selfName, .object o)])
  (hh : MethodsHave Γ aim [(some π, fields ++ methods ++ [(selfName, .object o)])] π ds methods)
include hm hh

/-- A name that an object has a field or a method for is planned among its members. -/
theorem binds_of_member {n : String} (hn : n ∈ f.names members ∨ n ∈ ds.map DefDecl.name) :
    plan.binds n members = true := by
  rwa [hm.binds_iff, List.map_append, List.mem_append, ← hm.names_eq, hh.names_eq]

include ho hown

/-- While the methods of an object are made, its members are as they are planned, and no scope is
opened. -/
theorem good_methods (hf : m.scopes = f) : ∀ k ∈ (watchMethods members ds).moments m,
    k.Good aim plan ∧ ∀ place, k.locate place = place := by
  subst hf
  intro k hk
  have hlt : members < m.scopes.size := ho.lt_size.1 hm.own_lt
  obtain ⟨m₁, rfl⟩ | ⟨d, hd, hk⟩ := moments_watchMethods hlt hk
  · exact ⟨trivial, fun _ => rfl⟩
  obtain ⟨v, m₁, rfl, hbound⟩ | ⟨c, m₁, hc, rfl, hchain, hn₁⟩ := hk
  · obtain ⟨b, hb, hhas⟩ := hh.of_mem hd
    have hobject : plan.object? members ≠ none := by
      rw [hm.object_eq]
      exact Option.some_ne_none o
    have htype : plan.type? members d.name = some b.2 :=
      hhas.name_eq ▸ hm.type?_eq (List.mem_append_right _ hb) hown
    exact ⟨⟨hm.own_lt, ⟨hobject, b.2, htype, hhas.isFn⟩, hbound⟩, fun _ => rfl⟩
  have hscope : c.scope = members := ofDecl_scope hc
  refine ⟨⟨hscope ▸ hm.own_lt, fun n t _ ht => ?_⟩, fun _ => rfl⟩
  rw [hscope, owner?, hchain, ho.chain_eq members hlt, hm.chain_eq] at ht
  obtain rfl : t = members := List.mem_singleton.1 (List.mem_of_find?_eq_some ht)
  have hb : plan.binds n t = true :=
    binds_of_member hm hh (hn₁ n (containsOwn_iff.1 (by simpa using List.find?_some ht)))
  rw [hscope, Plan.owner?, hm.chain_eq]
  exact List.find?_cons_of_pos hb

/-- The methods of an object are bound all at once: until the last one is there, none is called. -/
theorem sound_methods (hplain : aim.Typed → ∀ e ∈ fields, ¬ e.2.IsFn)
    (hapart : ∀ d ∈ ds, ∀ e ∈ ds, d.Uses e.name → ¬ aim.Apart (d.Assigns e.name))
    (hev : MethodsEvery aim.Permits (Lasting aim.watched) ds) :
    Sound Γ aim plan f (fun plan' f' _ => Houses plan' f' members o π fields methods
      (fields ++ methods)) (watchMethods members ds) := by
  intro m hf
  have hgood := good_methods ho hm hown hh hf
  refine ⟨plan, .still (fun k hk => (hgood k hk).1) (fun k hk => (hgood k hk).2), ?_⟩
  subst hf
  have hlt : members < m.scopes.size := ho.lt_size.1 hm.own_lt
  have hnames : ds.map DefDecl.name = methods.map Prod.fst := hh.names_eq.symm
  have hnodup : ((fields ++ methods).map Prod.fst).Nodup :=
    (List.nodup_append.1 (nodup_members hown)).1
  obtain ⟨m', hrun, hsize, ha, hfound⟩ := execMethods_ok hlt
    (fun d hd => exists_closure (hh.of_mem hd).choose_spec.2.nodup members true)
    (by rwa [hm.names_eq, hnames, ← List.map_append])
  have hg : Grows plan m.scopes plan m'.scopes := by
    refine ⟨.refl plan, fun t n hn => ?_⟩
    have hview := ha.view_eq t (lt_size_of_mem_names hn)
    rw [show m'.scopes.names t = _ from hview]
    exact List.mem_append_left _ hn
  have hp : Planned plan m'.scopes := by
    refine ⟨by rw [hsize, ho.size_eq], fun t ht => ?_, fun t n hn => ?_⟩
    · rw [hsize] at ht
      rw [chain, ha.outer_eq t ht]
      exact ho.chain_eq t ht
    · obtain ⟨w, hw⟩ := Orderly.names_iff.1 hn
      rcases hfound t n w hw with hw | ⟨rfl, d, hd, rfl, -⟩
      · exact ho.binds t n (Orderly.names_iff.2 ⟨w, hw⟩)
      · exact binds_of_member hm hh (Or.inr (List.mem_map_of_mem hd))
  have hm' : Houses plan m'.scopes members o π fields methods (fields ++ methods) :=
    hm.grow ho.toPlanned hg (hnames ▸ ha)
  rw [run_watchMethods, hrun]
  refine ⟨ho.more hp hg fun t n w hw => ?_, hg, hm'⟩
  refine (hfound t n w hw).imp_right ?_
  rintro ⟨rfl, d, hd, rfl, c, hc, rfl⟩
  obtain ⟨b, hb, hhas⟩ := hh.of_mem hd
  have htype : plan.type? t d.name = some b.2 :=
    hhas.name_eq ▸ hm.type?_eq (List.mem_append_right _ hb) hown
  refine ⟨fun c' hc' => ?_, b.2, htype, fun _ => ?_⟩
  · rw [List.mem_singleton.1 hc']
    refine hm'.lasts rfl hown hplain (fun e he => ?_) hhas (hev.of_mem hd) hc htype
    obtain ⟨d', hd', hname⟩ := List.mem_map.1 (hnames ▸ List.mem_map_of_mem (f := Prod.fst) he)
    exact hname ▸ hapart d hd d' hd'
  · refine closure_fits hhas hc hm.own_lt htype (fun _ => ?_) (by rw [hm.object_eq]; rfl)
    exact (ho.object_eq t hm.own_lt o hm.object_eq).1.symm

end Methods

end Definitions

section Expressions

variable (he : ExprSound Γ aim depth)
include he

theorem sound_expr {e : Expr} (ho : Orderly Γ aim plan f) (hs : s < plan.size)
    (hβ : plan.place s = some β) (hh : e.Has Γ aim env (path ++ β) t)
    (hev : e.Every aim.Permits (Lasting aim.watched))
    (hr : Resolves aim plan f s env.env e.Uses fun _ => False) :
    Sound Γ aim plan f (fun plan' f' v => Valued Γ aim (plan.home s) env.env (¬ e.Detaches t) t
      plan' f' v ∧ NamesKept f f') (watchExpr depth s path e) := by
  refine (he s β path e plan f env t ho hs hβ hh hev hr).frame fun m a m' hm => ?_
  rw [(run_watch_of_depth depth).1] at hm
  exact ((frame_of_depth depth).1 s e).of_ok hm

/-- Arguments are of the kinds of the parameters. -/
theorem sound_args {es : List Expr} {params : List Ty} (ho : Orderly Γ aim plan f)
    (hs : s < plan.size) (hβ : plan.place s = some β) (hh : ArgsHave Γ aim env (path ++ β) es params)
    (hev : ArgsEvery aim.Permits (Lasting aim.watched) es)
    (hr : Resolves aim plan f s env.env (fun n => ArgsUse n es) fun _ => False) :
    Sound Γ aim plan f (fun plan' f' vs => vs.length = params.length ∧
      (∀ v ∈ vs, v.Lasts Γ aim plan' f') ∧
        (aim.Precise → List.Forall₂ (fun t v => Ty.Includes v t) params vs))
      (watchArgs (watchExpr depth s) path es) := by
  induction es generalizing plan f params path with
  | nil =>
    obtain rfl : params = [] := hh
    exact .pure ho ⟨rfl, List.forall_mem_nil _, fun _ => .nil⟩
  | cons e es ih =>
    obtain ⟨param, rest, t, rfl, ht, hsub, hh⟩ := hh
    apply (sound_expr he ho hs hβ ht hev.1 (hr.imp fun _ => Or.inl)).bind
    rintro plan₁ f₁ v ho₁ hg₁ ⟨hv, hk₁⟩
    have hs₁ : s < plan₁.size := Nat.lt_of_lt_of_le hs hg₁.extend.size_le
    have hr₁ := (hr.imp fun n => Or.inr).keep ho.toPlanned hs hg₁ hk₁
    apply (ih ho₁ hs₁ ((hg₁.extend.place_eq hs).trans hβ) hh hev.2 hr₁).bind
    rintro plan₂ f₂ vs ho₂ hg₂ ⟨hlen, hvs, hkinds⟩
    refine .pure ho₂ ⟨congrArg Nat.succ hlen, List.forall_mem_cons.2 ⟨?_, hvs⟩, fun hp => ?_⟩
    · exact hv.lasts.grow ho₁.toPlanned ho₂.toPlanned hg₂
    · exact .cons ((hv.includes hp).of_isSubtype hsub) (hkinds hp)

theorem sound_option {value : Option Expr} (ho : Orderly Γ aim plan f) (hs : s < plan.size)
    (hβ : plan.place s = some β) (hh : OptionHas Γ aim env (path ++ β) value t)
    (hev : OptionEvery aim.Permits (Lasting aim.watched) value)
    (hr : Resolves aim plan f s env.env (fun n => OptionUses n value) fun _ => False) :
    Sound Γ aim plan f (Valued Γ aim (plan.home s) env.env (∀ e ∈ value, ¬ e.Detaches t) t)
      (watchOption (watchExpr depth s) path value) := by
  cases value with
  | none =>
    obtain ⟨p, rfl, hnil⟩ := hh
    have hreturned : Returned Γ aim (.prim p) plan f .nil := ⟨Value.lasts_of_plain rfl, hnil⟩
    exact .pure ho (hreturned.valued fun _ => ⟨p, rfl⟩)
  | some e =>
    obtain ⟨u, hu, hsub⟩ := hh
    apply (sound_expr he ho hs hβ hu hev hr).mono
    rintro plan' f' v - - ⟨hv, -⟩
    have hv := hv.of_isSubtype hsub
    exact ⟨hv.lasts, fun ha hd => hv.fits ha (hd e rfl), hv.includes⟩

/-- A variable or a field gets a value of its type. Among the members of an object there must be no
functions to name. -/
theorem sound_let {d : LetDecl} {b : String × Ty} (ho : Orderly Γ aim plan f) (hs : s < plan.size)
    (hβ : plan.place s = some β) (hh : d.Has Γ aim env (path ++ β) b)
    (hev : d.Every aim.Permits (Lasting aim.watched))
    (hr : Resolves aim plan f s env.env (Stmt.letStmt d).Uses fun _ => False)
    (hb : d.name ∉ f.names s → plan.type? s d.name = some b.2)
    (hplace : aim.Typed → plan.object? s = none ∨ ¬ HasFunction env.env) :
    Sound Γ aim plan f (fun plan' f' v => (v.Lasts Γ aim plan' f' ∧
      (aim.Typed → b.2.IsFn → HasFunction env.env)) ∧ AddsNames s [d.name] f f')
      (watchLet (watchExpr depth s) s path d) := by
  apply Sound.frame
  · obtain ⟨name, typeName, value⟩ := d
    apply Sound.requireFresh ho
    intro hn
    have hb := hb hn
    apply (sound_option he ho hs hβ hh.2.1 hev hr).bind
    rintro plan₁ f₁ v ho₁ hg₁ ⟨hlasts, hfits, -⟩
    have hfits (ha : aim.Typed) := hfits ha (hh.2.2 ha)
    have hs₁ : s < plan₁.size := Nat.lt_of_lt_of_le hs hg₁.extend.size_le
    have hb₁ : plan₁.type? s name = some b.2 := (hg₁.extend.type_eq hs).trans hb
    have hgi : Grows plan₁ f₁ plan₁ (f₁.insert s name v) := grows_insert (ho₁.lt_size.1 hs₁)
    have hlasts : v.Lasts Γ aim plan₁ (f₁.insert s name v) :=
      hlasts.grow ho₁.toPlanned (planned_insert ho₁.toPlanned (by rw [Plan.binds, hb₁]; rfl)) hgi
    have hplaced (ha : aim.Typed) : v.Fits Γ aim plan₁ (f₁.insert s name v) (plan₁.home s)
        (plan₁.object? s).isSome b.2 := by
      rw [hg₁.extend.home_eq hs, hg₁.extend.object_eq hs]
      rcases hplace ha with hnone | hplain
      · rw [hnone]
        exact (hfits ha).1.grow hgi
      · exact ((hfits ha).1.grow hgi).at_place fun hfn => hplain ((hfits ha).2 hfn)
    have ho₂ := orderly_insert ho₁ (ho₁.lt_size.1 hs₁) hb₁ hlasts hplaced
    exact .define ho₂ (ho₁.lt_size.1 hs₁) (.pure ho₂ ⟨hlasts, fun ha => (hfits ha).2⟩)
  · intro m a m' hm
    rw [run_watchLet ((run_watch_of_depth depth).1 s)] at hm
    exact (declares_execLet ((frame_of_depth depth).1 s) s d).of_ok hm

/-- Fields get values of their types one after another, and no field is a function. -/
theorem sound_fields {ds : List LetDecl} {rest : List (String × Ty)} (ho : Orderly Γ aim plan f)
    (hm : Houses plan f members o π fields methods own) (hfields : fields = own ++ rest)
    (hown : (Γ.own o).entries = fields ++ methods ++ [(selfName, .object o)])
    (hplain : aim.Typed → ∀ e ∈ own, ¬ e.2.IsFn)
    (hh : FieldsHave Γ aim [(some π, own)] (path ++ π) ds rest)
    (hev : FieldsEvery aim.Permits (Lasting aim.watched) ds) :
    Sound Γ aim plan f (fun plan' f' _ => Houses plan' f' members o π fields methods fields ∧
      (aim.Typed → ∀ e ∈ fields, ¬ e.2.IsFn))
      (watchFields (watchExpr depth members) members path ds) := by
  induction ds generalizing plan f own rest path with
  | nil =>
    obtain rfl : rest = [] := hh
    rw [List.append_nil] at hfields
    subst hfields
    exact .pure ho ⟨hm, hplain⟩
  | cons d ds ih =>
    obtain ⟨b, rest, rfl, hd, hh⟩ := hh
    have hmem : b ∈ fields := hfields ▸ List.mem_append_right _ (List.mem_cons_self ..)
    have hb : plan.type? members d.name = some b.2 :=
      hd.name_eq ▸ hm.type?_eq (List.mem_append_left _ hmem) hown
    have hnone (ha : aim.Typed) : ¬ HasFunction (Blocks.env [(some π, own)]) := by
      rintro ⟨n, u, hu, hfn⟩
      rw [Blocks.env, List.map_singleton, Env.lookup_singleton] at hu
      exact hplain ha _ (Bindings.mem_entries_of_findIn hu) hfn
    apply (sound_let he ho hm.own_lt hm.place_eq hd hev.1 (hm.resolves hfields hplain) (fun _ => hb)
      fun ha => Or.inr (hnone ha)).bind
    rintro plan₁ f₁ v ho₁ hg₁ ⟨⟨-, hfn⟩, ha⟩
    rw [← hd.name_eq] at ha
    have hm₁ : Houses plan₁ f₁ members o π fields methods (own ++ [b]) :=
      hm.grow ho.toPlanned hg₁ ha
    refine ih ho₁ hm₁ (by rw [hfields, List.append_assoc]; rfl) (fun hT e he' => ?_) hh hev.2
    rcases List.mem_append.1 he' with he' | he'
    · exact hplain hT e he'
    · rw [List.mem_singleton.1 he']
      exact fun hb => hnone hT (hfn hT hb)

/-- An object is made in a scope of its own, and has all members of its type in the end. -/
theorem sound_object {name : Option String} {fds : List LetDecl} {mds : List DefDecl}
    (ho : Orderly Γ aim plan f) (hs : s < plan.size) (hβ : plan.place s = some β)
    (hh : (Expr.object name fds mds).Has Γ aim env (path ++ β) t)
    (hev : (Expr.object name fds mds).Every aim.Permits (Lasting aim.watched)) :
    Sound Γ aim plan f (Valued Γ aim (plan.home s) types True t) (do
      let members ← step openRoot
      mark fun _ => .opened members s path (fds.map LetDecl.name ++ mds.map DefDecl.name)
      watchFields (watchExpr depth members) members [.part 0] fds
      watchMethods members mds
      return .object name members) := by
  obtain ⟨-, o, fs, ms, rfl, hown, hfields, hmethods⟩ := hh
  obtain ⟨hpermits, hfev, hmev⟩ := hev
  have hnames : fds.map LetDecl.name ++ mds.map DefDecl.name = (fs ++ ms).map Prod.fst := by
    rw [List.map_append, hfields.names_eq, hmethods.names_eq]
  apply Sound.openRoot ho hs hβ (listsMembers hown) (fun n hn => hnames ▸ hn)
  intro ho₁
  have hm₁ : Houses (plan.addRoot (fs ++ ms) (some o) (some (path ++ β))) (f.addRoot ∅) f.size o
      (path ++ β) fs ms [] := by
    have hlayout : (plan.addRoot (fs ++ ms) (some o) (some (path ++ β))).layout f.size =
        ⟨[], plan.size, fs ++ ms, some o, some (path ++ β)⟩ := ho.size_eq ▸ Plan.layout_push
    refine ⟨?_, by rw [Plan.chain, hlayout], by rw [Plan.object?, hlayout],
      by rw [Plan.place, hlayout], by rw [hlayout], names_addRoot⟩
    rw [← ho.size_eq]
    exact Nat.lt_succ_self _
  apply (sound_fields he ho₁ hm₁ rfl hown (fun _ => List.forall_mem_nil _) hfields hfev).bind
  rintro plan₂ f₂ _ ho₂ - ⟨hm₂, hplain⟩
  apply (sound_methods ho₂ hm₂ hown hmethods hplain (Aim.apart_of_permits hpermits) hmev).bind
  intro plan₃ f₃ _ ho₃ _ hm₃
  exact .pure ho₃ ⟨Value.lasts_of_plain rfl, fun _ _ => ⟨⟨_, _, rfl, hm₃.realizes rfl⟩,
    fun hfn => absurd hfn Ty.not_isFn_object⟩, fun _ => rfl⟩

end Expressions

/-- A block gets a scope of its own, and is about to be run there. -/
theorem sound_open {values : Bindings Value} {outer : ScopeId} {body : List Stmt} (path : Path)
    (ho : Orderly Γ aim plan f) (houter : outer < plan.size) (hβ : plan.place outer = some β)
    (h : Admits Γ aim plan f s env (path ++ β) returns own bs body)
    (hnames : values.names = own.map Prod.fst) (hlasts : ∀ e ∈ values.entries, e.2.Lasts Γ aim plan f)
    (hkinds : aim.Precise → ∀ e ∈ values.entries, ∀ t, Bindings.findIn e.1 own = some t →
      t.Includes e.2) :
    Sound Γ aim plan f (fun plan' f' inner => Stands aim plan' f' inner env (path ++ β) own bs
      (fun n => BlockUses n body) (fun n => BlockAssigns n body)
      fun n => BlockCaptures aim.watched n body)
      (watchOpen s values outer path (declaredAll body)) := by
  refine .openChild ho h.own_lt houter hβ (own ++ bs) (fun n hn => ?_)
    (h.values_fit hnames hlasts hkinds) fun hgrows =>
      stands_addChild ho.toPlanned h.own_lt hnames h.finds h.fixed h.means hgrows
  rw [List.map_append, h.has.names_eq]
  exact List.mem_append_right _ hn

section Statements

variable (hs : StmtSound Γ aim depth)
include hs

/-- A block binds one name after another. Each statement sees those of the statements before it, and
functions that are made early hold on to no name that comes later. -/
theorem sound_block {sts : List Stmt} {last : Value} (ho : Orderly Γ aim plan f)
    (hlast : last.Lasts Γ aim plan f)
    (h : Stands aim plan f s env β own bs (fun n => BlockUses n sts) (fun n => BlockAssigns n sts)
      (fun n => BlockCaptures aim.watched n sts))
    (hh : BlockHas Γ aim ((some β, own) :: env) β (path ++ β) returns sts bs)
    (hev : Lasting aim.watched sts ∧ StmtsEvery aim.Permits (Lasting aim.watched) sts) :
    Sound Γ aim plan f (Ended Γ aim returns (BlockReturns sts))
      (watchBlock (watchStmt depth s) path last sts) := by
  induction sts generalizing plan f own bs last path with
  | nil => exact .pure ho ⟨hlast, fun _ => id⟩
  | cons st sts ih =>
    obtain ⟨as, rest, rfl, hst, hrest⟩ := hh
    obtain ⟨hlasting, hevst, hevsts⟩ := hev
    obtain ⟨hlater, hlasting⟩ := List.pairwise_cons.1 hlasting
    have hcaptured (n : String) (hn : st.Captures aim.watched n) : n ∉ rest.map Prod.fst := by
      rw [hrest.names_eq, declaredAll, List.mem_flatMap]
      rintro ⟨later, hmem, hn'⟩
      exact hlater later hmem n hn hn'
    have hstands : Stands aim plan f s env β own (as ++ rest) st.Uses st.Assigns
        (st.Captures aim.watched) := h.imp (fun n _ => Or.inl) (fun n _ => Or.inl) fun n => Or.inl
    have hframe := (hs s β (.part 0 :: path) st plan f env returns own as rest ho hstands hst hevst
      hcaptured).frame
      (R := fun f f' => AddsNames s st.declared f f') fun m a m' hm => by
        rw [(run_watch_of_depth depth).2] at hm
        exact ((frame_of_depth depth).2 s st).of_ok hm
    apply hframe.bind
    rintro plan₁ f₁ c ho₁ hg₁ ⟨hc, ha⟩
    cases c with
    | returning v => exact .pure ho₁ ⟨hc.lasts, hc.obeys⟩
    | normal v =>
      have hrest : BlockHas Γ aim ((some β, own ++ as) :: env) β ((.part 1 :: path) ++ β) returns sts
          rest := hrest
      refine (ih ho₁ hc.lasts ?_ hrest ⟨hlasting, hevsts⟩).mono fun plan' f' c' _ _ hc' =>
        ⟨hc'.lasts, fun hp => (hc'.obeys hp).or (hc.obeys hp)⟩
      rw [← hst.names_eq] at ha
      have hnew {n : String} (hn : n ∉ (own ++ as).map Prod.fst) : n ∉ st.declared := by
        rw [← hst.names_eq]
        exact fun hn' => hn (by rw [List.map_append]; exact List.mem_append_right _ hn')
      exact (h.grow rfl ho.toPlanned hg₁ ha).imp (fun n hn hu => Or.inr ⟨hnew hn, hu⟩)
        (fun n hn ha => Or.inr ⟨hnew hn, ha⟩) fun n => Or.inr

theorem sound_body {values : Bindings Value} {body : List Stmt} (ho : Orderly Γ aim plan f)
    (hβ : plan.place s = some β) (h : Admits Γ aim plan f s env (path ++ β) returns own bs body)
    (hnames : values.names = own.map Prod.fst) (hlasts : ∀ e ∈ values.entries, e.2.Lasts Γ aim plan f)
    (hkinds : aim.Precise → ∀ e ∈ values.entries, ∀ t, Bindings.findIn e.1 own = some t →
      t.Includes e.2) :
    Sound Γ aim plan f (Ended Γ aim returns (BlockReturns body)) (do
      let inner ← watchOpen s values s path (declaredAll body)
      watchBlock (watchStmt depth inner) [] .nil body) :=
  (sound_open path ho h.own_lt hβ h hnames hlasts hkinds).bind fun _ _ _ ho' _ hstands =>
    sound_block hs ho' (Value.lasts_of_plain rfl) hstands h.has h.every

theorem sound_loop {name : String} {body : List Stmt} {items : List Value}
    (ho : Orderly Γ aim plan f) (hβ : plan.place s = some β)
    (h : Admits Γ aim plan f s env (path ++ β) returns [(name, .prim .integer)] bs body)
    (hitems : ∀ v ∈ items, v.Lasts Γ aim plan f)
    (hkinds : aim.Precise → ∀ v ∈ items, v.kind = .integer) :
    Sound Γ aim plan f (Ended Γ aim returns False)
      (watchLoop (fun item => do
        let inner ← watchOpen s (Bindings.singleton name item) s path (declaredAll body)
        watchBlock (watchStmt depth inner) [] .nil body) items) := by
  induction items generalizing plan f with
  | nil => exact .pure ho ⟨Value.lasts_of_plain rfl, fun _ => id⟩
  | cons item items ih =>
    have hlasts : ∀ e ∈ (Bindings.singleton name item).entries, e.2.Lasts Γ aim plan f := by
      intro e he
      rw [List.mem_singleton.1 he]
      exact hitems item (List.mem_cons_self ..)
    have hinteger (hp : aim.Precise) : ∀ e ∈ (Bindings.singleton name item).entries, ∀ t,
        Bindings.findIn e.1 [(name, Ty.prim .integer)] = some t → t.Includes e.2 := by
      intro e he t ht
      obtain rfl := List.mem_singleton.1 he
      rw [Bindings.findIn, if_pos rfl] at ht
      cases ht
      exact hkinds hp item (List.mem_cons_self ..)
    have hframe := (sound_body hs ho hβ h rfl hlasts hinteger).frame (R := NamesKept)
      fun m a m' hm => by
        refine Keeps.of_ok (R := SameNames) (keeps_openChild fun inner => ?_) hm
        rw [run_watchBlock ((run_watch_of_depth depth).2 inner)]
        exact keeps_runBlock (fun st _ => ((frame_of_depth depth).2 inner st).keeps) _
    apply hframe.bind
    rintro plan₁ f₁ c ho₁ hg₁ ⟨hc, hk⟩
    cases c with
    | returning v => exact .pure ho₁ ⟨hc.lasts, hc.obeys⟩
    | normal v =>
      refine ih ho₁ ((hg₁.extend.place_eq h.own_lt).trans hβ) (h.keep ho.toPlanned hg₁ hk)
        (fun w hw => ?_) fun hp w hw => hkinds hp w (List.mem_cons_of_mem _ hw)
      exact (hitems w (List.mem_cons_of_mem _ hw)).grow ho.toPlanned ho₁.toPlanned hg₁

section Calls

variable {c : Closure} {args : List Value} {sig : Signature}

/-- The body of a closure is run in a scope of its own, where its parameters are bound. -/
theorem sound_enter (ho : Orderly Γ aim plan f) (hscope : c.scope < plan.size)
    (hβ : plan.place c.scope = some β)
    (h : Admits Γ aim plan f s env (.fn c.name :: β) (some (.prim sig.returns))
      (c.params.zip (sig.params.map .prim)) bs c.body)
    (hparams : c.params.length = sig.params.length) (hlen : args.length = c.params.length)
    (hargs : ∀ v ∈ args, v.Lasts Γ aim plan f)
    (hends : aim.Precise → sig.returns.Includes .nil ∨ BlockReturns c.body)
    (hgives : aim.Precise → t = .prim sig.returns ∧ List.Forall₂ Prim.Includes sig.params args) :
    Sound Γ aim plan f (Returned Γ aim t) (watchEnter (watchStmt depth) c s args) := by
  have hnames : (Bindings.zip c.params args c.params_nodup).names =
      (c.params.zip (sig.params.map Ty.prim)).map Prod.fst := by
    simp [Bindings.names, Bindings.zip, List.map_fst_zip, hlen, hparams]
  apply (sound_open [.fn c.name] ho hscope hβ h hnames (fun e he => hargs e.2 (List.of_mem_zip he).2)
    fun hp => includes_of_zip c.params_nodup (hgives hp).2).bind
  intro plan₁ f₁ inner ho₁ _ hstands
  apply Sound.quiet ho₁ (quiet_report _)
  intro _ _
  have hbody : Sound Γ aim plan₁ f₁ (Ended Γ aim (some (.prim sig.returns)) (BlockReturns c.body))
      (watchBlock (watchStmt depth inner) [] .nil c.body) :=
    sound_block hs ho₁ (Value.lasts_of_plain rfl) hstands h.has h.every
  apply hbody.bind
  intro plan₂ f₂ outcome ho₂ _ hended
  cases outcome with
  | normal v =>
    refine .pure ho₂ ⟨Value.lasts_of_plain (v := .nil) rfl, fun hp => ?_⟩
    rw [(hgives hp).1]
    exact (hends hp).resolve_right (hended.obeys hp)
  | returning v =>
    refine Sound.quiet ho₂ (quiet_report _) fun _ _ => .pure ho₂ ⟨hended.lasts, fun hp => ?_⟩
    obtain ⟨u, hu, hv⟩ := hended.obeys hp
    rwa [(hgives hp).1, Option.some.inj hu]

omit hs in
/-- A method is called from a scope for its receiver, inside the object that it was made in. -/
theorem sound_receiver {receiver : Value} (ho : Orderly Γ aim plan f) (hc : c.Lasts Γ aim plan f)
    (hlies : c.Lies Γ aim plan f env β sig bs) (hreceiver : receiver.Lasts Γ aim plan f)
    (hfits : aim.Typed → receiver.Fits Γ aim plan f (plan.home c.scope) false (.object o)) :
    Sound Γ aim plan f (fun plan' f' scope => Stands aim plan' f' scope env β [(selfName, .object o)] []
      (fun n => n ∉ c.params ∧ BlockUses n c.body) (fun n => BlockAssigns n c.body)
      (c.Captures aim.watched))
      (watchOpen c.scope (Bindings.singleton selfName receiver) c.scope [] []) := by
  refine .openChild ho hc.scope_lt hc.scope_lt hlies.place_eq ([(selfName, .object o)] ++ [])
    (List.forall_mem_nil _) (fun e he => ?_) fun hgrows =>
      stands_addChild ho.toPlanned hc.scope_lt rfl (fun ha n u hn hu hl => ?_)
        (fun n _ hn => hc.fixed n hn) (fun n d _ hn hd => hlies.means n d hn hd) hgrows
  · rw [List.mem_singleton.1 he]
    exact ⟨hreceiver, .object o, by simp [Bindings.findIn], hfits⟩
  · exact hlies.finds ha n u hu.1 hu.2 hl fun h => hn (h.2 ▸ List.mem_cons_self ..)

/-- A method finds its receiver in a scope of its own, and everything else where it was made. -/
theorem sound_method {receiver : Value} (ho : Orderly Γ aim plan f) (hc : c.Lasts Γ aim plan f)
    (hmethod : c.isMethod = true) (hlen : args.length = c.params.length)
    (hargs : ∀ v ∈ receiver :: args, v.Lasts Γ aim plan f)
    (hself : aim.Typed → ∃ name o, receiver = .object name c.scope ∧ Realizes Γ plan f c.scope o)
    (hgives : aim.Precise → (Callable.closure c).Gives plan (receiver :: args) t) :
    Sound Γ aim plan f (Returned Γ aim t) (do
      let scope ← watchOpen c.scope (Bindings.singleton selfName receiver) c.scope [] []
      watchEnter (watchStmt depth) c scope args) := by
  obtain ⟨env, β, sig, bs, hlies⟩ := hc.lies
  obtain ⟨o, hobject, -⟩ := hlies.self hmethod
  have hfits (ha : aim.Typed) :
      receiver.Fits Γ aim plan f (plan.home c.scope) false (.object o) := by
    obtain ⟨name, o', rfl, hr⟩ := hself ha
    exact ⟨name, c.scope, rfl, hr.members_lt, ⟨o, hobject, Ty.equiv_refl Γ _⟩, hr.complete⟩
  apply (sound_receiver ho hc hlies (hargs receiver (List.mem_cons_self ..)) hfits).bind
  intro plan₁ f₁ scope ho₁ hg₁ hstands
  refine sound_enter hs ho₁ (Nat.lt_of_lt_of_le hc.scope_lt hg₁.extend.size_le)
    ((hg₁.extend.place_eq hc.scope_lt).trans hlies.place_eq)
    (hlies.admits hc.every hstands.own_lt (fun ha n u hn hu hl => ?_)
      (fun n hn => hstands.fixed_chain hn List.not_mem_nil)
      fun n d hn hd => hstands.means_chain hn List.not_mem_nil (hlies.find_receiver hmethod hobject hd))
    hlies.length_eq hlen (fun v hv => ?_) hlies.ends fun hp =>
      (hgives hp).of_planned [receiver] hlies.type_eq (hlen.trans hlies.length_eq)
  · refine hstands.resolves ha n u ⟨hn, hu⟩ ?_
    obtain ⟨place, hfound⟩ := Blocks.exists_find hl
    exact Blocks.lookup_of_find (hlies.find_receiver hmethod hobject hfound)
  · exact (hargs v (List.mem_cons_of_mem _ hv)).grow ho.toPlanned ho₁.toPlanned hg₁

/-- A call goes to the scope that the closure was made in, or for a method to one in between. -/
theorem sound_closure (ho : Orderly Γ aim plan f) (hc : c.Lasts Γ aim plan f)
    (hargs : ∀ v ∈ args, v.Lasts Γ aim plan f)
    (harity : aim = .arity → args.length = c.params.length + c.isMethod.toNat)
    (hself : aim.Typed → c.isMethod = true → args.length = c.params.length + 1 →
      ∃ name o, args.head? = some (.object name c.scope) ∧ Realizes Γ plan f c.scope o)
    (hgives : aim.Precise → (Callable.closure c).Gives plan args t) :
    Sound Γ aim plan f (Returned Γ aim t) (watchClosure (watchStmt depth) c args) := by
  have hfail {e : EvalError} (he : e.kind = .arityMismatch)
      (hlen : args.length ≠ c.params.length + c.isMethod.toNat) : aim.Allows (.error e) :=
    Aim.allows_arityMismatch (fun ha => hlen (harity ha)) he
  apply Sound.mark ho (fun m hm => Moment.good_called (hm ▸ ho) (hm ▸ hc)) fun _ _ => rfl
  cases hmethod : c.isMethod with
  | false =>
    rw [if_neg nofun]
    split
    · next hlen =>
      obtain ⟨env, β, sig, bs, hlies⟩ := hc.lies
      refine sound_enter hs ho hc.scope_lt hlies.place_eq
        (hlies.admits hc.every hc.scope_lt (fun ha n t hn hu ht => ?_) hc.fixed hlies.means)
        hlies.length_eq hlen hargs hlies.ends fun hp =>
          (hgives hp).of_planned [] hlies.type_eq (hlen.trans hlies.length_eq)
      exact hlies.finds ha n t hn hu ht fun h => nomatch hmethod.symm.trans h.1
    · next hlen => exact .fail (hfail rfl (by simpa [hmethod] using hlen))
  | true =>
    rw [if_pos rfl]
    match args with
    | [] => exact .fail (hfail rfl (by simp [hmethod]))
    | receiver :: args =>
      dsimp only
      split
      · next hlen =>
        refine sound_method hs ho hc hmethod hlen hargs (fun ha => ?_) hgives
        obtain ⟨name, o, hhead, hr⟩ := hself ha hmethod (by simp [hlen])
        exact ⟨name, o, Option.some.inj hhead, hr⟩
      · next hlen => exact .fail (hfail rfl (by simpa [hmethod] using hlen))

/-- A function that keeps to a signature gives a value for its result if it is called on arguments for
its parameters. -/
theorem sound_call {g : Callable} (ho : Orderly Γ aim plan f)
    (hg : (Value.function g).Lasts Γ aim plan f) (hargs : ∀ v ∈ args, v.Lasts Γ aim plan f)
    (htakes : aim.Typed → g.Takes Γ aim plan f args)
    (hgives : aim.Precise → g.Gives plan args t) :
    Sound Γ aim plan f (Returned Γ aim t) (watchCall (watchStmt depth) g args) := by
  have htyped (ha : aim = .arity) : aim.Typed := ha ▸ trivial
  cases g with
  | native g =>
    have harity {E : Fault → Prop} (hE : ∀ e, aim.Allows e → E e) :
        (∀ k, g.arity? = some k → args.length = k) ∨ LenientArity E := by
      by_cases ha : aim = .arity
      · exact Or.inl (htakes (htyped ha) ha)
      · exact Or.inr fun _ he => hE _ (Aim.allows_arityMismatch ha he)
    have hquiet : Quiet aim.Allows (fun v => (∀ c ∈ v.closures, c ∈ Value.closuresAll args) ∧
        (aim.Precise → t.Includes v)) (g.call args) := by
      refine quiet_of_kinds (fun E _ hE => quiet_native g args (harity hE)) fun hp => ?_
      obtain ⟨sig, rfl, hpromises, front, vs, hfront, hvs⟩ := hgives hp
      exact quiet_promised hpromises (fun _ => Aim.allows_arityMismatch hp.ne_arity) hfront hvs
    refine .last (.quiet ho hquiet fun v hv => .pure ho ⟨fun c hc => ?_, hv.2⟩)
    obtain ⟨w, hw, hc⟩ := Value.mem_closuresAll.1 (hv.1 c hc)
    exact hargs w hw c hc
  | closure c =>
    exact sound_closure hs ho (hg c (List.mem_singleton.2 rfl)) hargs
      (fun ha => (htakes (htyped ha)).1 ha) (fun ha => (htakes ha).2) hgives
  | named name =>
    refine .pure ho ⟨Value.lasts_of_plain rfl, fun hp => ?_⟩
    obtain ⟨sig, -, ho, -⟩ := hgives hp
    exact ho.elim

end Calls

end Statements

section Operators

variable {I : Plan → ValueScopes → Prop} {left right : Watched Value} {op : Operator} {l r : Ty}
  (hl : Sound Γ aim plan f (fun plan' f' v => I plan' f' ∧ (aim.Precise → l.Includes v)) left)
  (hr : ∀ plan' f', Orderly Γ aim plan' f' → I plan' f' →
    Sound Γ aim plan' f' (fun _ _ v => aim.Precise → r.Includes v) right)

include hr in
/-- The right operand of AND and OR decides if the left one does not. -/
theorem sound_logical (hop : OperatorTyped Γ op l r t) (hlogical : op ∈ [Operator.and, .or])
    (ho : Orderly Γ aim plan f) (hI : I plan f) :
    Sound Γ aim plan f (fun _ _ v => Scalar v ∧ (aim.Precise → t.Includes v))
      (watchLogical op right) := by
  obtain ⟨-, rfl, rfl⟩ := hop.logical_inv hlogical
  apply (hr plan f ho hI).bind
  intro plan₁ f₁ v ho₁ _ hv
  apply Sound.quiet ho₁ (quiet_of_kinds (fun _ _ _ => quiet_requireOperand op v) fun hp =>
    quiet_operand op (hv hp))
  exact fun _ _ => .pure ho₁ ⟨trivial, fun _ => rfl⟩

include hl hr

/-- Both operands have their values when the operator is applied. -/
theorem sound_operands {g : Value → Value → EvalM Value}
    (hscalar : ∀ E, Tolerates E → ∀ a b, Quiet E Scalar (g a b))
    (hkinds : aim.Precise → ∀ a b, l.Includes a → r.Includes b →
      Quiet aim.Allows (fun v => t.Includes v) (g a b)) :
    Sound Γ aim plan f (fun _ _ v => Scalar v ∧ (aim.Precise → t.Includes v))
      (do step (g (← left) (← right))) := by
  apply hl.bind
  rintro plan₁ f₁ a ho₁ _ ⟨hI, ha⟩
  apply (hr _ _ ho₁ hI).bind
  intro plan₂ f₂ b ho₂ _ hb
  have hquiet := quiet_of_kinds (fun E hE _ => hscalar E hE a b) fun hp =>
    hkinds hp a b (ha hp) (hb hp)
  exact .last (.quiet ho₂ hquiet fun _ hv => .pure ho₂ hv)

/-- Values of any kinds can be asked whether they are equal. -/
theorem sound_equality (hop : OperatorTyped Γ op l r t) (hequality : op ∈ [Operator.eq, .ne])
    (g : Bool → Bool) :
    Sound Γ aim plan f (fun _ _ v => Scalar v ∧ (aim.Precise → t.Includes v))
      (do return .boolean (g (← step (equal (← left) (← right))))) := by
  obtain rfl := hop.equality_inv hequality
  apply hl.bind
  rintro plan₁ f₁ a ho₁ _ ⟨hI, -⟩
  apply (hr _ _ ho₁ hI).bind
  intro plan₂ f₂ b ho₂ _ _
  exact .quiet ho₂ (quiet_equal a b) fun _ _ => .pure ho₂ ⟨trivial, fun _ => rfl⟩

/-- An operator makes scalars of its operands, and where the kinds of values matter, what the types of
its operands and its result say. -/
theorem sound_binary (hop : OperatorTyped Γ op l r t)
    (hne : aim.Precise → op.Orders → l ≠ .prim .comparable) :
    Sound Γ aim plan f (fun _ _ v => Scalar v ∧ (aim.Precise → t.Includes v))
      (watchBinary op left right) := by
  have horder (answer : Value → Value → Option Bool) (hop' : op.Orders)
      (hanswer : ∀ p ∈ [Prim.boolean, .integer, .decimal, .string], ∀ a b, p.Includes a →
        p.Includes b → ∃ b', answer a b = some b') :
      Sound Γ aim plan f (fun _ _ v => Scalar v ∧ (aim.Precise → t.Includes v))
        (do let a ← left; let b ← right; step (ordering op (answer a b) a b)) :=
    sound_operands hl hr (fun _ _ a b => quiet_ordering op _ a b) fun hp a b ha hb =>
      quiet_comparison hop hop' (hne hp hop') ha hb hanswer
  cases op with
  | and | or =>
    obtain ⟨rfl, rfl, rfl⟩ := hop.logical_inv (by simp)
    apply hl.bind
    rintro plan₁ f₁ v ho₁ _ ⟨hI, hv⟩
    apply Sound.quiet ho₁ (quiet_of_kinds (fun _ _ _ => quiet_requireOperand _ v) fun hp =>
      quiet_operand _ (hv hp))
    intro b _
    cases b
    all_goals first
      | exact sound_logical hr hop (by simp) ho₁ hI
      | exact .pure ho₁ ⟨trivial, fun _ => rfl⟩
  | add => exact sound_operands hl hr (fun _ _ a b => quiet_plus a b) fun _ a b => quiet_sum hop
  | sub | mul =>
    exact sound_operands hl hr (fun _ _ a b => quiet_arithmetic _ _ _ a b) fun _ a b =>
      quiet_difference _ _ hop (by simp)
  | div =>
    exact sound_operands hl hr (fun _ _ a b => quiet_divide a b) fun _ a b => quiet_quotient hop
  | eq => exact sound_equality hl hr hop (by simp) id
  | ne => exact sound_equality hl hr hop (by simp) not
  | lt => exact horder Value.less? (by simp [Operator.Orders]) fun _ hp _ _ ha hb =>
      (Value.exists_order hp ha hb).1
  | le => exact horder Value.lessEq? (by simp [Operator.Orders]) fun _ hp _ _ ha hb =>
      (Value.exists_order hp ha hb).2
  | gt => exact horder (fun a b => b.less? a) (by simp [Operator.Orders]) fun _ hp _ _ ha hb =>
      (Value.exists_order hp hb ha).1
  | ge => exact horder (fun a b => b.lessEq? a) (by simp [Operator.Orders]) fun _ hp _ _ ha hb =>
      (Value.exists_order hp hb ha).2

end Operators

/-- What an expression gives is noted. -/
theorem sound_noting {e : Expr} {home : ScopeId} {attached : Prop} {w : Watched Value}
    (hs : s < plan.size) (hβ : plan.place s = some β) (hh : e.Has Γ aim env (path ++ β) t)
    (hw : Sound Γ aim plan f (Valued Γ aim home types attached t) w) :
    Sound Γ aim plan f (Valued Γ aim home types attached t) (noting s path e w) :=
  .noting hs hβ hh.knows (fun _ _ _ hv => hv.includes) hw

section Constructs

variable (he : ExprSound Γ aim depth) (ho : Orderly Γ aim plan f) (hlt : s < plan.size)
  (hβ : plan.place s = some β)
include he ho hlt hβ

/-- The right operand is evaluated in the scopes that the left one leaves. -/
theorem sound_operation {symbol : String} {left right : Expr}
    (hh : (Expr.binary symbol left right).Has Γ aim env (path ++ β) t)
    (hev : (Expr.binary symbol left right).Every aim.Permits (Lasting aim.watched))
    (hr : Resolves aim plan f s env.env (Expr.binary symbol left right).Uses fun _ => False) :
    Sound Γ aim plan f
      (Valued Γ aim (plan.home s) env.env (¬ (Expr.binary symbol left right).Detaches t) t)
      (watchExpr (depth + 1) s path (.binary symbol left right)) := by
  unfold watchExpr
  apply sound_noting hlt hβ hh
  obtain ⟨-, op, l, r, hsymbol, hl, hrt, htyped, hne⟩ := hh
  have hleft : Sound Γ aim plan f (fun plan₁ f₁ v => (Grows plan f plan₁ f₁ ∧ NamesKept f f₁) ∧
      (aim.Precise → l.Includes v)) (watchExpr depth s (.part 0 :: path) left) :=
    (sound_expr he ho hlt hβ hl hev.2.1 (hr.imp fun _ => Or.inl)).mono fun _ _ _ _ hg h =>
      ⟨⟨hg, h.2⟩, h.1.includes⟩
  have hright (plan₁ : Plan) (f₁ : ValueScopes) (ho₁ : Orderly Γ aim plan₁ f₁)
      (h₁ : Grows plan f plan₁ f₁ ∧ NamesKept f f₁) :
      Sound Γ aim plan₁ f₁ (fun _ _ v => aim.Precise → r.Includes v)
        (watchExpr depth s (.part 1 :: path) right) := by
    have hlt₁ : s < plan₁.size := Nat.lt_of_lt_of_le hlt h₁.1.extend.size_le
    have hβ₁ : plan₁.place s = some β := (h₁.1.extend.place_eq hlt).trans hβ
    have hr₁ := (hr.imp fun _ => Or.inr).keep ho.toPlanned hlt h₁.1 h₁.2
    exact (sound_expr he ho₁ hlt₁ hβ₁ hrt hev.2.2 hr₁).mono fun _ _ _ _ _ h => h.1.includes
  dsimp only
  rw [hsymbol]
  apply (sound_binary hleft hright htyped hne).mono
  intro plan' f' v _ _ hv
  have hreturned : Returned Γ aim t plan' f' v := ⟨Value.lasts_of_plain hv.1.plain, hv.2⟩
  exact hreturned.valued fun _ => htyped.exists_prim

/-- A member that is read is what its type says, unless it is a function. -/
theorem sound_property {receiver : Expr} {name : String}
    (hh : (Expr.property receiver name).Has Γ aim env (path ++ β) t)
    (hev : (Expr.property receiver name).Every aim.Permits (Lasting aim.watched))
    (hr : Resolves aim plan f s env.env (Expr.property receiver name).Uses fun _ => False) :
    Sound Γ aim plan f
      (Valued Γ aim (plan.home s) env.env (¬ (Expr.property receiver name).Detaches t) t)
      (watchExpr (depth + 1) s path (.property receiver name)) := by
  unfold watchExpr
  apply sound_noting hlt hβ hh
  obtain ⟨-, o, hreceiver, htype⟩ := hh
  apply (sound_expr he ho hlt hβ hreceiver hev.2 hr).bind
  rintro plan₁ f₁ v ho₁ hg₁ ⟨hv, -⟩
  apply Sound.quiet ho₁ (quiet_of_kinds (fun _ _ _ => quiet_requireObject v) fun hp =>
    quiet_object (hv.includes hp))
  rintro members ⟨⟨oname, rfl⟩, -⟩
  refine .last (.member ho₁ (fun ha => ?_) fun w hw => .pure ho₁ ?_)
  · subst ha
    exact ho₁.mem_members (hv.realizes trivial) htype hev.1
  have hfits (ha : aim.Typed) := ho₁.member_fits ha (hv.realizes ha) htype hw
  refine ⟨(ho₁.holds members name w hw).1, fun ha hd => ?_, fun hp => (hfits hp.typed).includes hp⟩
  have hplain : ¬ t.IsFn := fun hfn => hd ⟨hfn, trivial⟩
  exact ⟨(hfits ha).at_place hplain, fun hfn => absurd hfn hplain⟩

/-- A function that is called by its name gets as many arguments as its type says. -/
theorem sound_callByName {name : String} {args : List Expr} (hs : StmtSound Γ aim depth)
    (hh : (Expr.call name args).Has Γ aim env (path ++ β) t)
    (hev : (Expr.call name args).Every aim.Permits (Lasting aim.watched))
    (hr : Resolves aim plan f s env.env (Expr.call name args).Uses fun _ => False) :
    Sound Γ aim plan f (Valued Γ aim (plan.home s) env.env (¬ (Expr.call name args).Detaches t) t)
      (watchExpr (depth + 1) s path (.call name args)) := by
  unfold watchExpr
  apply sound_noting hlt hβ hh
  obtain ⟨-, params, place, hfind, hargs⟩ := hh
  apply Sound.lookup ho
  intro v hv
  cases v with
  | none => exact .fail (Aim.allows_error (by simp [EvalError.kind]))
  | some v =>
    obtain ⟨hlasts, hfits⟩ := ho.of_lookup hlt hv
    have htype := Blocks.lookup_of_find hfind
    have hfits (ha : aim.Typed) := hfits ha _ _ (hr ha name _ (Or.inl rfl) htype)
    apply Sound.quiet ho (quiet_of_kinds (fun _ _ _ => quiet_requireFunction name v) fun hp =>
      quiet_function name ((hfits hp.typed).includes hp))
    rintro g ⟨rfl, -⟩
    apply (sound_args he ho hlt hβ hargs hev.2 (hr.imp fun _ => Or.inr)).bind
    rintro plan₁ f₁ vs ho₁ hg₁ ⟨hlen, hvs, hkinds⟩
    apply (sound_call hs ho₁ (hlasts.grow ho.toPlanned ho₁.toPlanned hg₁) hvs (fun ha => ?_)
      fun hp => ?_).mono
    · intro plan₂ f₂ v _ _ hv
      exact hv.valued fun ha => (hfits ha).exists_prim
    · exact (hfits ha).callable.takes hlen
    · exact (hfits hp.typed).gives [] hp hg₁.extend (hkinds hp)

/-- A member that is called gets the object that it is a member of. -/
theorem sound_callMember {receiver : Expr} {name : String} {args : List Expr}
    (hs : StmtSound Γ aim depth)
    (hh : (Expr.methodCall receiver name args).Has Γ aim env (path ++ β) t)
    (hev : (Expr.methodCall receiver name args).Every aim.Permits (Lasting aim.watched))
    (hr : Resolves aim plan f s env.env (Expr.methodCall receiver name args).Uses fun _ => False) :
    Sound Γ aim plan f
      (Valued Γ aim (plan.home s) env.env (¬ (Expr.methodCall receiver name args).Detaches t) t)
      (watchExpr (depth + 1) s path (.methodCall receiver name args)) := by
  unfold watchExpr
  apply sound_noting hlt hβ hh
  obtain ⟨-, o, params, hreceiver, htype, hargs⟩ := hh
  apply (sound_expr he ho hlt hβ hreceiver hev.2.1 (hr.imp fun _ => Or.inl)).bind
  rintro plan₁ f₁ v ho₁ hg₁ ⟨hv, hk₁⟩
  have hlt₁ : s < plan₁.size := Nat.lt_of_lt_of_le hlt hg₁.extend.size_le
  have hr₁ := (hr.imp fun _ => Or.inr).keep ho.toPlanned hlt hg₁ hk₁
  apply Sound.quiet ho₁ (quiet_of_kinds (fun _ _ _ => quiet_requireObject v) fun hp =>
    quiet_object (hv.includes hp))
  rintro members ⟨⟨oname, rfl⟩, -⟩
  apply Sound.member ho₁
  · intro ha
    have hrealizes := hv.realizes (ha ▸ trivial)
    exact ho₁.mem_members hrealizes htype (ho₁.ne_self hrealizes htype ⟨_, _, rfl⟩)
  intro w hw
  have hlasts := (ho₁.holds members name w hw).1
  have hfits (ha : aim.Typed) := ho₁.member_fits ha (hv.realizes ha) htype hw
  apply Sound.quiet ho₁ (quiet_of_kinds (fun _ _ _ => quiet_requireFunction name w) fun hp =>
    quiet_function name ((hfits hp.typed).includes hp))
  rintro g ⟨rfl, -⟩
  apply (sound_args he ho₁ hlt₁ ((hg₁.extend.place_eq hlt).trans hβ) hargs hev.2.2 hr₁).bind
  rintro plan₂ f₂ vs ho₂ hg₂ ⟨hlen, hvs, hkinds⟩
  apply (sound_call hs ho₂ (hlasts.grow ho₁.toPlanned ho₂.toPlanned hg₂)
    (List.forall_mem_cons.2 ⟨Value.lasts_of_plain (v := .object oname members) rfl, hvs⟩)
    (fun ha => ?_) fun hp => ?_).mono
  · intro plan₃ f₃ v _ _ hv
    exact hv.valued fun ha => (hfits ha).exists_prim
  · exact (hfits ha).callable.takes_receiver hlen ((hv.realizes ha).grow hg₂)
  · exact (hfits hp.typed).gives [.object oname members] hp hg₂.extend (hkinds hp)

end Constructs

theorem exprSound_succ (he : ExprSound Γ aim depth) (hs : StmtSound Γ aim depth) :
    ExprSound Γ aim (depth + 1) := by
  intro s β path e plan f env t ho hlt hβ hh hev hr
  cases e with
  | literal value =>
    unfold watchExpr
    apply sound_noting hlt hβ hh
    obtain ⟨-, p, hp, rfl⟩ := hh
    have hreturned : Returned Γ aim (.prim p) plan f value.toValue :=
      ⟨Value.lasts_of_plain value.closures_toValue, fun _ => Prim.includes_literal hp⟩
    exact .pure ho (hreturned.valued fun _ => ⟨p, rfl⟩)
  | group inner =>
    unfold watchExpr
    exact sound_noting hlt hβ hh
      (he s β (.part 0 :: path) inner plan f env t ho hlt hβ hh.2 hev.2 hr)
  | binary symbol left right => exact sound_operation he ho hlt hβ hh hev hr
  | var name =>
    unfold watchExpr
    apply sound_noting hlt hβ hh
    obtain ⟨-, place, hfind⟩ := hh
    have htype : env.env.lookup name = some t := Blocks.lookup_of_find hfind
    apply Sound.lookup ho
    intro v hv
    cases v with
    | none => exact .fail (Aim.allows_error (by simp [EvalError.kind]))
    | some v =>
      obtain ⟨hlasts, hfits⟩ := ho.of_lookup hlt hv
      have hfits (ha : aim.Typed) := hfits ha t _ (hr ha name t rfl htype)
      exact .pure ho ⟨hlasts, fun ha _ => ⟨hfits ha, fun hfn => ⟨name, t, htype, hfn⟩⟩,
        fun hp => (hfits hp.typed).includes hp⟩
  | property receiver name => exact sound_property he ho hlt hβ hh hev hr
  | call name args => exact sound_callByName he ho hlt hβ hs hh hev hr
  | methodCall receiver name args => exact sound_callMember he ho hlt hβ hs hh hev hr
  | object name fields methods =>
    unfold watchExpr
    apply sound_noting hlt hβ hh
    exact (sound_object he ho hlt hβ hh hev).mono fun _ _ v _ _ hv =>
      ⟨hv.lasts, fun ha _ => hv.fits ha trivial, hv.includes⟩
  | misplaced kind => exact hh.elim

/-- A variable that is assigned to gets a value of its type, in the scope that it is found in. -/
theorem sound_assignVar {name : String} {value : Expr} {as rest : List (String × Ty)}
    (he : ExprSound Γ aim depth) (ho : Orderly Γ aim plan f)
    (h : Stands aim plan f s env β own (as ++ rest) (Stmt.assignStmt (.var name) value).Uses
      (Stmt.assignStmt (.var name) value).Assigns
      ((Stmt.assignStmt (.var name) value).Captures aim.watched))
    (hh : (Stmt.assignStmt (.var name) value).Has Γ aim ((some β, own) :: env) β (path ++ β) returns as)
    (hev : (Stmt.assignStmt (.var name) value).Every aim.Permits (Lasting aim.watched)) :
    Sound Γ aim plan f (Ended Γ aim returns False)
      (watchStmt (depth + 1) s path (.assignStmt (.var name) value)) := by
  have hlt : s < plan.size := h.own_lt
  unfold watchStmt
  obtain ⟨rfl, place, t, u, hfind, hu, hsub, hdetach⟩ := hh
  apply Sound.requireBound ho
  apply (sound_expr he ho hlt h.place_eq hu hev.2 (h.resolves.plain.imp fun _ => Or.inr)).bind
  rintro plan₁ f₁ v ho₁ hg₁ ⟨hv, hk₁⟩
  have hv := hv.of_isSubtype hsub
  have h₁ := h.keep ho.toPlanned hg₁ hk₁
  apply Sound.assign
  intro r hr
  have hmem : name ∈ f₁.names r := mem_names_of_owner hr
  rw [owner?, ho₁.chain_eq s (ho₁.lt_size.1 h₁.own_lt)] at hr
  have hfound (ha : aim.Typed) : plan₁.type? r name = some t ∧
      (aim.Apart (Stmt.Assigns name (.assignStmt (.var name) value)) → t.IsFn →
        plan₁.object? r = none) := by
    obtain ⟨r', hr', hfound⟩ := h₁.resolves ha name t (Or.inl rfl) (Blocks.lookup_of_find hfind)
    obtain rfl : r = r' := Option.some.inj (hr.symm.trans hr')
    exact hfound
  obtain ⟨ho₂, hlasts⟩ := orderly_rebind ho₁ hmem hv.lasts fun ha => by
    obtain ⟨htype, hobject⟩ := hfound ha
    refine ⟨t, htype, ?_⟩
    rw [Plan.home_of_chain h₁.own_lt (List.mem_of_find?_eq_some hr), hg₁.extend.home_eq hlt]
    refine (hv.fits ha (hdetach ha)).1.of_member fun harity hfn => ?_
    subst harity
    rw [hobject trivial hfn]
    rfl
  refine ⟨ho₂, lt_size_of_mem_names hmem, fun ha => ?_, .pure ho₂ ⟨hlasts, fun _ => id⟩⟩
  subst ha
  rintro ⟨hobject', t', htype', hfn⟩
  obtain ⟨htype, hobject⟩ := hfound trivial
  obtain rfl : t' = t := Option.some.inj (htype'.symm.trans htype)
  exact hobject' (hobject rfl hfn)

/-- A field that is assigned to gets a value of its type. -/
theorem sound_assignMember {receiver value : Expr} {name : String} {as rest : List (String × Ty)}
    (he : ExprSound Γ aim depth) (ho : Orderly Γ aim plan f)
    (h : Stands aim plan f s env β own (as ++ rest)
      (Stmt.assignStmt (.property receiver name) value).Uses
      (Stmt.assignStmt (.property receiver name) value).Assigns
      ((Stmt.assignStmt (.property receiver name) value).Captures aim.watched))
    (hh : (Stmt.assignStmt (.property receiver name) value).Has Γ aim ((some β, own) :: env) β
      (path ++ β) returns as)
    (hev : (Stmt.assignStmt (.property receiver name) value).Every aim.Permits
      (Lasting aim.watched)) :
    Sound Γ aim plan f (Ended Γ aim returns False)
      (watchStmt (depth + 1) s path (.assignStmt (.property receiver name) value)) := by
  have hlt : s < plan.size := h.own_lt
  unfold watchStmt
  obtain ⟨rfl, o, t, u, hreceiver, htype, hplain, hu, hsub⟩ := hh
  obtain ⟨⟨hpermits, hevr⟩, hevv⟩ := hev
  apply (sound_expr he ho hlt h.place_eq hreceiver hevr (h.resolves.plain.imp fun _ => Or.inl)).bind
  rintro plan₁ f₁ v ho₁ hg₁ ⟨hreceiver, hk₁⟩
  have h₁ := h.keep ho.toPlanned hg₁ hk₁
  apply Sound.quiet ho₁ (quiet_of_kinds (fun _ _ _ => quiet_requireObject v) fun hp =>
    quiet_object (hreceiver.includes hp))
  rintro members ⟨⟨oname, rfl⟩, -⟩
  apply Sound.requireMember ho₁
  · intro ha
    subst ha
    exact ho₁.mem_members (hreceiver.realizes trivial) htype hpermits
  intro hmem
  apply (sound_expr he ho₁ h₁.own_lt h₁.place_eq hu hevv (h₁.resolves.plain.imp fun _ => Or.inr)).bind
  rintro plan₂ f₂ w ho₂ hg₂ ⟨hw, -⟩
  have hw := hw.of_isSubtype hsub
  have hmem₂ : name ∈ f₂.names members := hg₂.names_mono members name hmem
  apply Sound.assign
  intro r hr
  obtain rfl : members = r := Option.some.inj ((owner_of_mem_names hmem₂).symm.trans hr)
  have hmember (ha : aim.Typed) : ∃ t', plan₂.type? members name = some t' ∧
      Ty.equiv Γ t' t = true := by
    obtain ⟨-, -, hmember⟩ := ho₂.of_member ((hreceiver.realizes ha).grow hg₂) htype hmem₂
    exact hmember
  obtain ⟨ho₃, hlasts⟩ := orderly_rebind ho₂ hmem₂ hw.lasts fun ha => by
    obtain ⟨t', ht', heq⟩ := hmember ha
    refine ⟨t', ht', ?_⟩
    obtain ⟨hfits, -⟩ := hw.fits ha fun hd => hplain hd.1
    exact (hfits.at_place hplain).of_equiv (Ty.equiv_symm heq)
  refine ⟨ho₃, lt_size_of_mem_names hmem₂, fun ha => ?_, .pure ho₃ ⟨hlasts, fun _ => id⟩⟩
  subst ha
  rintro ⟨-, u', hu', hfn⟩
  obtain ⟨t', ht', heq⟩ := hmember trivial
  obtain rfl : u' = t' := Option.some.inj (hu'.symm.trans ht')
  exact hplain (Ty.isFn_of_equiv (Ty.equiv_symm heq) hfn)

theorem stmtSound_succ (he : ExprSound Γ aim depth) (hs : StmtSound Γ aim depth) :
    StmtSound Γ aim (depth + 1) := by
  intro s β path st plan f env returns own as rest ho h hh hev hrest
  have hlt : s < plan.size := h.own_lt
  unfold watchStmt
  cases st with
  | letStmt decl =>
    obtain ⟨b, rfl, hb⟩ := hh
    apply (sound_let he ho hlt h.place_eq hb hev h.resolves.plain (h.type_eq rfl hb.name_eq)
      fun _ => Or.inl h.object_eq).bind
    rintro plan₁ f₁ v ho₁ _ ⟨⟨hv, -⟩, -⟩
    exact .pure ho₁ ⟨hv, fun _ => id⟩
  | defStmt decl =>
    obtain ⟨b, rfl, hb⟩ := hh
    exact (sound_def ho h hb hev hrest).bind fun _ _ v ho' _ hv => .pure ho' ⟨hv, fun _ => id⟩
  | ifStmt condition thenBody elseBody =>
    obtain ⟨rfl, hcondition, ⟨thens, hthen⟩, elses, helse⟩ := hh
    obtain ⟨hevc, hevt, heve⟩ := hev
    apply (sound_expr he ho hlt h.place_eq hcondition hevc (h.resolves.plain.imp fun _ => Or.inl)).bind
    rintro plan₁ f₁ v ho₁ hg₁ ⟨hv, hk₁⟩
    have h₁ := h.keep ho.toPlanned hg₁ hk₁
    apply Sound.quiet ho₁ (quiet_of_kinds (fun _ _ _ => quiet_requireCondition v) fun hp =>
      quiet_condition (hv.includes hp))
    intro holds _
    cases holds with
    | true =>
      refine (sound_body hs ho₁ h₁.place_eq (h₁.admits (List.forall_mem_nil _) hthen hevt
        (fun n _ hu => Or.inr (Or.inl hu)) (fun n _ => Or.inl) (fun n hn hc => Or.inl ⟨?_, hc⟩) hrest)
        rfl (List.forall_mem_nil _) fun _ => List.forall_mem_nil _).mono fun _ _ c _ _ hc =>
          ⟨hc.lasts, fun hp => (hc.obeys hp).mono And.left⟩
      rwa [← hthen.names_eq]
    | false =>
      refine (sound_body hs ho₁ h₁.place_eq (h₁.admits (List.forall_mem_nil _) helse heve
        (fun n _ hu => Or.inr (Or.inr hu)) (fun n _ => Or.inr) (fun n hn hc => Or.inr ⟨?_, hc⟩) hrest)
        rfl (List.forall_mem_nil _) fun _ => List.forall_mem_nil _).mono fun _ _ c _ _ hc =>
          ⟨hc.lasts, fun hp => (hc.obeys hp).mono And.right⟩
      rwa [← helse.names_eq]
  | forStmt name iterable body =>
    obtain ⟨rfl, ⟨t, hiterable, hsub⟩, bs, hbody⟩ := hh
    apply (sound_expr he ho hlt h.place_eq hiterable hev.1 (h.resolves.plain.imp fun _ => Or.inl)).bind
    rintro plan₁ f₁ v ho₁ hg₁ ⟨hv, hk₁⟩
    have h₁ := h.keep ho.toPlanned hg₁ hk₁
    apply Sound.quiet ho₁ (quiet_of_kinds (fun _ _ _ => quiet_requireList v) fun hp =>
      quiet_iterable ((hv.includes hp).of_isSubtype hsub))
    rintro items ⟨rfl, hkinds⟩
    refine sound_loop hs ho₁ h₁.place_eq (h₁.admits (fun e he => ⟨.integer, ?_⟩) hbody hev.2
      (fun n hn hu => Or.inr ⟨?_, hu⟩) (fun n hn ha => ⟨?_, ha⟩) (fun n hn hc => ?_) hrest)
      (fun w hw c hc => ?_) hkinds
    · rw [List.mem_singleton.1 he]
    · exact fun heq => hn (heq ▸ List.mem_cons_self ..)
    · exact fun heq => hn (heq ▸ List.mem_cons_self ..)
    · rw [List.map_append, List.mem_append, not_or, hbody.names_eq] at hn
      exact ⟨fun heq => hn.1 (heq ▸ List.mem_cons_self ..), hn.2, hc⟩
    · exact hv.lasts c (Value.mem_closuresAll.2 ⟨w, hw, hc⟩)
  | returnStmt value =>
    obtain ⟨rfl, t, ht, hvalue⟩ := hh
    apply (sound_option he ho hlt h.place_eq hvalue hev h.resolves.plain).bind
    intro plan₁ f₁ v ho₁ _ hv
    exact .pure ho₁ ⟨hv.lasts, fun hp => ⟨t, ht, hv.includes hp⟩⟩
  | exprStmt e =>
    obtain ⟨rfl, t, ht⟩ := hh
    apply (sound_expr he ho hlt h.place_eq ht hev h.resolves.plain).bind
    rintro plan₁ f₁ v ho₁ _ ⟨hv, -⟩
    exact .pure ho₁ ⟨hv.lasts, fun _ => id⟩
  | assignStmt target value =>
    cases target with
    | var name => exact sound_assignVar he ho h hh hev
    | property receiver name => exact sound_assignMember he ho h hh hev
    | _ => exact hh.elim
  | misplaced kind => exact hh.elim

/-- Programs that obey the rules run as planned, at whatever depth they stop. -/
theorem sound_of_depth (Γ : TypeScopes) (aim : Aim) (depth : Nat) :
    ExprSound Γ aim depth ∧ StmtSound Γ aim depth := by
  induction depth with
  | zero => exact ⟨fun _ _ _ _ _ _ _ _ _ _ _ _ _ _ => .tooDeep,
    fun _ _ _ _ _ _ _ _ _ _ _ _ _ _ _ _ => .tooDeep⟩
  | succ depth ih => exact ⟨exprSound_succ ih.1 ih.2, stmtSound_succ ih.1 ih.2⟩

/-- A program that obeys the rules runs as planned in the scope that it stands in, whose block is the
whole program. -/
theorem sound_watch {p : Program} (depth : Nat) (ho : Orderly Γ aim plan f)
    (h : Stands aim plan f s env [] [] bs (fun _ => True) (fun _ => True) fun _ => True)
    (hh : p.Has Γ aim ((some [], []) :: env) bs) (hev : p.Every aim.Permits (Lasting aim.watched)) :
    Sound Γ aim plan f (fun _ _ _ => True) (watch depth s p) := by
  obtain ⟨he, hs⟩ := sound_of_depth Γ aim depth
  have htop {plan' : Plan} {f' : ValueScopes} (ho' : Orderly Γ aim plan' f') (c : Completion) :
      Sound Γ aim plan' f' (fun _ _ _ => True) (step (topLevel c)) := by
    cases c with
    | normal v =>
      exact .last (.quiet ho' (Quiet.pure (P := fun _ => True) trivial) fun _ _ => .pure ho' trivial)
    | returning v => exact .fail (Aim.allows_error (by simp [EvalError.kind]))
  unfold watch
  refine Sound.mark ho (fun _ _ => Moment.good_opened h.own_lt h.own_eq hh.names_eq)
    (fun _ _ => Moment.locate_self) ?_
  cases p with
  | source stmts =>
    have hbody : Sound Γ aim plan f (Ended Γ aim none (BlockReturns stmts))
        (watchBlock (watchStmt depth s) [] .nil stmts) :=
      sound_block hs ho (Value.lasts_of_plain rfl)
        (h.imp (fun _ _ _ => trivial) (fun _ _ _ => trivial) fun _ _ => trivial) hh hev
    apply hbody.bind
    intro plan₁ f₁ c ho₁ _ _
    exact htop ho₁ c
  | stmt st =>
    have hstands : Stands aim plan f s env [] [] (bs ++ []) st.Uses st.Assigns
        (st.Captures aim.watched) := (List.append_nil bs).symm ▸
      h.imp (fun _ _ _ => trivial) (fun _ _ _ => trivial) fun _ _ => trivial
    apply (hs s [] [.part 0] st plan f env none [] bs [] ho hstands hh hev (by simp)).bind
    intro plan₁ f₁ c ho₁ _ _
    exact htop ho₁ c
  | expr e =>
    obtain ⟨rfl, t, ht⟩ := hh
    exact (he s [] [.part 0, .part 0] e plan f ((some [], []) :: env) t ho h.own_lt h.place_eq ht hev
      (h.resolves.plain.imp fun _ _ => trivial)).mono fun _ _ _ _ _ _ => trivial

end ObjectLang.Evaluation
