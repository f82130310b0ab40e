import ObjectLang.Proofs.Resolution.Operators
import ObjectLang.Proofs.Resolution.Plan
import ObjectLang.Proofs.Types.Equivalence

/-!
Scopes in which every binding is as planned. A closure `Lasts`: whatever its body takes from outside
is fixed, and has the type that analysis has found. A value `Fits` its type as far as calls and
members go: objects have the members of their object types, and functions the parameters. Where the
kinds of values matter, it is also of a kind that its type promises, and functions keep to their
signatures.
-/

namespace ObjectLang

open Forest Typed

section Definitions

variable (Γ : TypeScopes) (aim : Aim) (plan : Plan) (f : ValueScopes)

/-- The members of an object are all that its object type is going to have, and that type is equal to
`o`. -/
structure Realizes (members o : ScopeId) : Prop where
  members_lt : members < plan.size
  object_eq : ∃ o', plan.object? members = some o' ∧ Ty.equiv Γ (.object o') (.object o) = true
  complete : ∀ n, plan.binds n members = true → n ∈ f.names members

/-- A function takes as many arguments as its type has parameters, one more if it is a member, and
if it is a method it is one of the object `home`. -/
def Callable.Fits (params : Nat) (home : ScopeId) (member : Bool) : Callable → Prop
  | .native g => aim = .arity → ∀ k, g.arity? = some k → params + member.toNat = k
  | .closure c => c.params.length = params ∧ (c.isMethod = true → c.scope = home) ∧
    (aim = .arity → c.isMethod = member)
  | .named _ => True

/-- A function can be called on arguments: a native function and, if the number of arguments matters,
any function on as many as it takes, and a method on an object of its own first. -/
def Callable.Takes (args : List Value) : Callable → Prop
  | .native g => aim = .arity → ∀ k, g.arity? = some k → args.length = k
  | .closure c => (aim = .arity → args.length = c.params.length + c.isMethod.toNat) ∧
    (c.isMethod = true → args.length = c.params.length + 1 →
      ∃ name o, args.head? = some (.object name c.scope) ∧ Realizes Γ plan f c.scope o)
  | .named _ => True

/-- A function keeps to a signature: a native function has it, and the name of a closure is planned
with it. -/
def Callable.Obeys (sig : Signature) : Callable → Prop
  | .native g => g.Promises sig
  | .closure c => c.scope < plan.size ∧ plan.type? c.scope c.name = some sig.toTy
  | .named _ => False

/-- A function is called on arguments for its parameters, and is to give a value of the type. -/
def Callable.Gives (args : List Value) (t : Ty) (g : Callable) : Prop :=
  ∃ sig : Signature, t = .prim sig.returns ∧ g.Obeys plan sig ∧ sig.Accepts args

/-- A value at a place, which is inside of `home` and is a member or not, is what its type says. -/
def Value.Fits (v : Value) (home : ScopeId) (member : Bool) : Ty → Prop
  | .prim p => aim.Precise → p.Includes v
  | .fn params returns => ∃ sig : Signature, .fn params returns = sig.toTy ∧
    ∃ g, v = .function g ∧ g.Fits aim params.length home member ∧ (aim.Precise → g.Obeys plan sig)
  | .object o => ∃ name members, v = .object name members ∧ Realizes Γ plan f members o

/-- The body of a closure obeys the rules at its place in the block at `β`, with the signature that is
planned for its name. What it takes from around it is found with the types that it has there, and the
names that it holds on to stand for their declarations. A method gets its receiver from the call. -/
structure Closure.Lies (c : Closure) (env : Blocks) (β : Path) (sig : Signature)
    (bs : List (String × Ty)) : Prop where
  place_eq : plan.place c.scope = some β
  type_eq : plan.type? c.scope c.name = some sig.toTy
  length_eq : c.params.length = sig.params.length
  has : BlockHas Γ aim ((some (.fn c.name :: β), c.params.zip (sig.params.map .prim)) :: env)
    (.fn c.name :: β) (.fn c.name :: β) (some (.prim sig.returns)) c.body bs
  knows : aim.KnowsBlock Γ (.fn c.name :: β)
    ((some (.fn c.name :: β), c.params.zip (sig.params.map .prim)) :: env)
    (some (.prim sig.returns)) c.body
  ends : aim.Precise → sig.returns.Includes .nil ∨ BlockReturns c.body
  self : c.isMethod = true → ∃ o, plan.object? c.scope = some o ∧
    env.find selfName = some (some β, .object o)
  finds : aim.Typed → ∀ n t, n ∉ c.params → BlockUses n c.body → env.env.lookup n = some t →
    ¬ (c.isMethod = true ∧ n = selfName) →
      Finds (aim.Apart (BlockAssigns n c.body)) plan f (plan.chain c.scope) n t
  means : ∀ n d, c.Captures aim.watched n → env.find n = some d →
    plan.Means (plan.chain c.scope) n d

/-- The body of a closure obeys the rules where it was made, and what it takes from there is fixed. -/
structure Closure.Lasts (c : Closure) : Prop where
  scope_lt : c.scope < plan.size
  every : Lasting aim.watched c.body ∧ StmtsEvery aim.Permits (Lasting aim.watched) c.body
  fixed : ∀ n, c.Captures aim.watched n → Fixed plan f (plan.chain c.scope) n
  lies : ∃ env β sig bs, c.Lies Γ aim plan f env β sig bs

def Value.Lasts (v : Value) : Prop := ∀ c ∈ v.closures, c.Lasts Γ aim plan f

/-- The names of a scope are the members of an object type, but for the object itself. -/
structure ListsMembers (own : List (String × Ty)) (o : ScopeId) : Prop where
  self_eq : Bindings.findIn selfName own = none
  member_eq : ∀ n, n ≠ selfName → Bindings.findIn n own = Γ.lookupOwn o n
  self_type : ∀ t, Γ.lookupOwn o selfName = some t → ¬ t.IsFn

/-- Every scope has what it is planned to have, as far as it has got names. -/
structure Forest.Orderly : Prop extends Planned plan f where
  object_eq : ∀ s < plan.size, ∀ o, plan.object? s = some o →
    plan.home s = s ∧ ListsMembers Γ (plan.layout s).own o
  holds : ∀ s n v, f.lookupOwn s n = some v → v.Lasts Γ aim plan f ∧
    ∃ t, plan.type? s n = some t ∧
      (aim.Typed → v.Fits Γ aim plan f (plan.home s) (plan.object? s).isSome t)

end Definitions

variable {Γ : TypeScopes} {aim : Aim} {plan plan' : Plan} {f f' : ValueScopes}
  {home home' : ScopeId} {member member' : Bool} {v : Value} {t u : Ty} {c : Closure}
  {s : ScopeId} {name : String}

section Fits

theorem Realizes.of_equiv {members a b : ScopeId} (h : Realizes Γ plan f members a)
    (hab : Ty.equiv Γ (.object a) (.object b) = true) : Realizes Γ plan f members b where
  members_lt := h.members_lt
  object_eq := by
    obtain ⟨o', ho', heq⟩ := h.object_eq
    exact ⟨o', ho', Ty.equiv_trans heq hab⟩
  complete := h.complete

theorem Value.Fits.realizes {name : Option String} {members o : ScopeId}
    (h : (Value.object name members).Fits Γ aim plan f home member (.object o)) :
    Realizes Γ plan f members o := by
  obtain ⟨_, _, heq, hr⟩ := h
  cases heq
  exact hr

/-- What fits is of the right kind. -/
theorem Value.Fits.includes (h : v.Fits Γ aim plan f home member t) (hp : aim.Precise) :
    t.Includes v := by
  cases t with
  | prim p => exact h hp
  | fn params returns =>
    obtain ⟨sig, -, g, rfl, -⟩ := h
    rfl
  | object o =>
    obtain ⟨name, members, rfl, -⟩ := h
    rfl

theorem Value.Fits.of_equiv (h : v.Fits Γ aim plan f home member t) (htu : t.equiv Γ u = true) :
    v.Fits Γ aim plan f home member u := by
  cases Ty.matches_of_equiv htu with
  | prim p => exact h
  | fn hp hr =>
    obtain ⟨sig, hsig, g, rfl, hg, ho⟩ := h
    rw [hp.length_eq] at hg
    exact ⟨sig, Signature.eq_toTy_of_equiv (hsig ▸ htu), g, rfl, hg, ho⟩
  | object hn hm =>
    obtain ⟨name, members, rfl, hr⟩ := h
    exact ⟨name, members, rfl, hr.of_equiv htu⟩

theorem Value.Fits.of_isSubtype (h : v.Fits Γ aim plan f home member t)
    (htu : t.isSubtype Γ u = true) : v.Fits Γ aim plan f home member u := by
  cases u with
  | prim p => exact fun hp => (h.includes hp).of_isSubtype htu
  | fn params returns => exact h.of_equiv (Ty.equiv_of_isSubtype htu nofun)
  | object o => exact h.of_equiv (Ty.equiv_of_isSubtype htu nofun)

/-- Only for functions it matters where they are. -/
theorem Value.Fits.at_place (h : v.Fits Γ aim plan f home member t) (ht : ¬ t.IsFn) :
    v.Fits Γ aim plan f home' member' t := by
  cases t with
  | prim p => exact h
  | fn params returns => exact absurd ⟨params, returns, rfl⟩ ht
  | object o => exact h

/-- Whether a function is a member matters only for the number of its arguments. -/
theorem Value.Fits.of_member (h : v.Fits Γ aim plan f home member t)
    (hm : aim = .arity → t.IsFn → member = member') : v.Fits Γ aim plan f home member' t := by
  cases t with
  | prim p => exact h
  | object o => exact h
  | fn params returns =>
    have hm (ha : aim = .arity) : member = member' := hm ha ⟨params, returns, rfl⟩
    obtain ⟨sig, hsig, g, rfl, hg, ho⟩ := h
    refine ⟨sig, hsig, g, rfl, ?_, ho⟩
    cases g with
    | native g => exact fun ha => hm ha ▸ hg ha
    | closure c => exact ⟨hg.1, hg.2.1, fun ha => hm ha ▸ hg.2.2 ha⟩
    | named name => trivial

theorem Ty.isFn_of_equiv (h : t.equiv Γ u = true) (hu : u.IsFn) : t.IsFn := by
  obtain ⟨params, returns, rfl⟩ := hu
  cases Ty.matches_of_equiv h with
  | fn hp hr => exact ⟨_, _, rfl⟩

theorem Ty.isFn_of_isSubtype (h : t.isSubtype Γ u = true) (hu : u.IsFn) : t.IsFn := by
  refine Ty.isFn_of_equiv (Ty.equiv_of_isSubtype h fun p hp => ?_) hu
  subst hp
  exact Ty.not_isFn_prim hu

theorem Realizes.grow {members o : ScopeId} (h : Realizes Γ plan f members o)
    (hg : Grows plan f plan' f') : Realizes Γ plan' f' members o where
  members_lt := Nat.lt_of_lt_of_le h.members_lt hg.extend.size_le
  object_eq := by
    rw [hg.extend.object_eq h.members_lt]
    exact h.object_eq
  complete n hn := by
    rw [hg.extend.binds_eq h.members_lt] at hn
    exact hg.names_mono members n (h.complete n hn)

theorem Callable.Fits.takes {g : Callable} {params : Nat} {args : List Value}
    (h : g.Fits aim params home false) (hlen : args.length = params) :
    g.Takes Γ aim plan f args := by
  cases g with
  | native g => exact fun ha k hk => hlen.trans (h ha k hk)
  | closure c =>
    obtain ⟨hparams, -, hmember⟩ := h
    refine ⟨fun ha => ?_, fun _ hlen' => absurd hlen' (by omega)⟩
    rw [hmember ha, hlen, hparams]
    rfl
  | named name => trivial

/-- A member gets the object that it is a member of. -/
theorem Callable.Fits.takes_receiver {g : Callable} {params : Nat} {args : List Value}
    {name : Option String} {o : ScopeId} (h : g.Fits aim params home true)
    (hlen : args.length = params) (hr : Realizes Γ plan f home o) :
    g.Takes Γ aim plan f (.object name home :: args) := by
  cases g with
  | native g => exact fun ha k hk => (congrArg Nat.succ hlen).trans (h ha k hk)
  | closure c =>
    obtain ⟨hparams, hscope, hmember⟩ := h
    refine ⟨fun ha => ?_, fun hm _ => ⟨name, o, ?_, ?_⟩⟩
    · rw [hmember ha, List.length_cons, hlen, hparams]
      rfl
    · rw [hscope hm]
      rfl
    · rwa [hscope hm]
  | named name => trivial

theorem Callable.Obeys.extend {g : Callable} {sig : Signature} (h : g.Obeys plan sig)
    (he : plan.Extends plan') : g.Obeys plan' sig := by
  cases g with
  | native g => exact h
  | closure c => exact ⟨Nat.lt_of_lt_of_le h.1 he.size_le, (he.type_eq h.1).trans h.2⟩
  | named name => exact h

/-- Functions give values of primitive types. -/
theorem Value.Fits.exists_prim {params : List Ty}
    (h : v.Fits Γ aim plan f home member (.fn params t)) : ∃ p, t = .prim p := by
  obtain ⟨sig, hsig, -⟩ := h
  exact ⟨sig.returns, (Ty.fn.inj hsig).2⟩

theorem Value.Fits.callable {params : List Ty} {g : Callable}
    (h : (Value.function g).Fits Γ aim plan f home member (.fn params t)) :
    g.Fits aim params.length home member := by
  obtain ⟨sig, -, _, heq, hg, -⟩ := h
  cases heq
  exact hg

/-- A function that fits its type is called on arguments of the types of its parameters. -/
theorem Value.Fits.gives {params : List Ty} {g : Callable} {vs : List Value}
    (h : (Value.function g).Fits Γ aim plan f home member (.fn params t)) (front : List Value)
    (hp : aim.Precise) (he : plan.Extends plan')
    (hvs : List.Forall₂ (fun t v => Ty.Includes v t) params vs) : g.Gives plan' (front ++ vs) t := by
  obtain ⟨sig, hsig, _, heq, -, ho⟩ := h
  cases heq
  obtain ⟨rfl, rfl⟩ := Ty.fn.inj hsig
  rw [List.forall₂_map_left_iff] at hvs
  exact ⟨sig, rfl, (ho hp).extend he, front, vs, rfl, hvs⟩

/-- A closure is called on arguments for the parameters that its name is planned with. -/
theorem Callable.Gives.of_planned {sig : Signature} {args : List Value} (front : List Value)
    (h : (Callable.closure c).Gives plan (front ++ args) t)
    (hsig : plan.type? c.scope c.name = some sig.toTy) (hlen : args.length = sig.params.length) :
    t = .prim sig.returns ∧ List.Forall₂ Prim.Includes sig.params args := by
  obtain ⟨sig', rfl, ⟨-, hsig'⟩, haccepts⟩ := h
  obtain rfl : sig' = sig := Signature.toTy_injective (Option.some.inj (hsig'.symm.trans hsig))
  exact ⟨rfl, haccepts.of_length hlen⟩

theorem Value.Fits.grow (h : v.Fits Γ aim plan f home member t) (hg : Grows plan f plan' f') :
    v.Fits Γ aim plan' f' home member t := by
  cases t with
  | prim p => exact h
  | fn params returns =>
    obtain ⟨sig, hsig, g, rfl, hfits, ho⟩ := h
    exact ⟨sig, hsig, g, rfl, hfits, fun hp => (ho hp).extend hg.extend⟩
  | object o =>
    obtain ⟨name, members, rfl, hr⟩ := h
    exact ⟨name, members, rfl, hr.grow hg⟩

end Fits

section Lasts

/-- Where types matter, all names that a body uses are watched. -/
theorem Closure.captures_of_uses (ha : aim.Typed) {n : String} (hn : n ∉ c.params)
    (hu : BlockUses n c.body) : c.Captures aim.watched n := by
  cases aim with
  | owners _ _ => exact ha.elim
  | arity | members | methods | kinds _ => exact Or.inl ⟨hn, hu⟩

theorem Closure.Lasts.grow (h : c.Lasts Γ aim plan f) (hp : Planned plan f)
    (hp' : Planned plan' f') (hg : Grows plan f plan' f') : c.Lasts Γ aim plan' f' where
  scope_lt := Nat.lt_of_lt_of_le h.scope_lt hg.extend.size_le
  every := h.every
  fixed n hn := by
    rw [hg.extend.chain_eq h.scope_lt]
    exact (h.fixed n hn).grow hg fun _ => Plan.chain_lt h.scope_lt
  lies := by
    obtain ⟨env, β, sig, bs, hlies⟩ := h.lies
    have hlt (t : ScopeId) : t ∈ plan.chain c.scope → t < plan.size := Plan.chain_lt h.scope_lt
    refine ⟨env, β, sig, bs, ?_, ?_, hlies.length_eq, hlies.has, hlies.knows, hlies.ends, ?_, ?_, ?_⟩
    · rw [hg.extend.place_eq h.scope_lt, hlies.place_eq]
    · rw [hg.extend.type_eq h.scope_lt, hlies.type_eq]
    · rw [hg.extend.object_eq h.scope_lt]
      exact hlies.self
    · rw [hg.extend.chain_eq h.scope_lt]
      exact fun ha n t hn hu ht hself => (hlies.finds ha n t hn hu ht hself).grow
        (h.fixed n (Closure.captures_of_uses ha hn hu)) hp hp' hg hlt
    · rw [hg.extend.chain_eq h.scope_lt]
      exact fun n d hn hd => hg.extend.means hlt (hlies.means n d hn hd)

theorem Value.Lasts.grow (h : v.Lasts Γ aim plan f) (hp : Planned plan f)
    (hp' : Planned plan' f') (hg : Grows plan f plan' f') : v.Lasts Γ aim plan' f' :=
  fun c hc => (h c hc).grow hp hp' hg

theorem Value.lasts_of_plain (hv : Evaluation.Plain v) : v.Lasts Γ aim plan f := by
  rw [Lasts, hv]
  exact fun _ hc => nomatch hc

end Lasts

namespace Forest

theorem Orderly.names_iff {n : String} : n ∈ f.names s ↔ ∃ v, f.lookupOwn s n = some v :=
  Bindings.mem_names_iff

/-- The plan for an object type and that for its members say the same about every member. -/
theorem Orderly.member_type (ho : Orderly Γ aim plan f) {members o : ScopeId}
    (hr : Realizes Γ plan f members o) (hself : name ≠ selfName)
    (ht : Γ.lookupOwn o name = some t) :
    ∃ t', plan.type? members name = some t' ∧ Ty.equiv Γ t' t = true := by
  obtain ⟨o', ho', heq⟩ := hr.object_eq
  cases Ty.matches_of_equiv heq with
  | object hn hm =>
    obtain ⟨t', ht'⟩ := Bindings.mem_names_iff.1
      ((hn name).2 (Bindings.mem_names_iff.2 ⟨t, ht⟩))
    refine ⟨t', ?_, hm name t' t ht' ht⟩
    exact ((ho.object_eq members hr.members_lt o' ho').2.member_eq name hself).trans ht'

theorem Orderly.lt_size (ho : Orderly Γ aim plan f) : s < plan.size ↔ s < f.size := by
  rw [ho.size_eq]

/-- What holds of the bindings of older scopes still does when there is more. -/
theorem Orderly.holds_grow (ho : Orderly Γ aim plan f) (hp' : Planned plan' f')
    (hg : Grows plan f plan' f') {n : String} (hv : f.lookupOwn s n = some v) :
    v.Lasts Γ aim plan' f' ∧ ∃ t, plan'.type? s n = some t ∧
      (aim.Typed → v.Fits Γ aim plan' f' (plan'.home s) (plan'.object? s).isSome t) := by
  have hs : s < plan.size :=
    ho.lt_size.2 (lt_size_of_mem_names (Bindings.mem_names_iff.2 ⟨v, hv⟩))
  obtain ⟨hlasts, t, ht, hfits⟩ := ho.holds s n v hv
  refine ⟨hlasts.grow ho.toPlanned hp' hg, t, ?_, fun ha => ?_⟩
  · rw [hg.extend.type_eq hs, ht]
  · rw [hg.extend.home_eq hs, hg.extend.object_eq hs]
    exact (hfits ha).grow hg

/-- A name that is found has a value that lasts, and that fits the type that it is found with. -/
theorem Orderly.of_lookup (ho : Orderly Γ aim plan f) (hs : s < plan.size)
    (hv : f.lookup s name = some v) : v.Lasts Γ aim plan f ∧ (aim.Typed → ∀ t assigned,
      Finds (aim.Apart assigned) plan f (plan.chain s) name t →
        v.Fits Γ aim plan f (plan.home s) false t) := by
  obtain ⟨r, hr, hv⟩ := owner_of_lookup hv
  obtain ⟨hlasts, u, hu, hfits⟩ := ho.holds r name v hv
  rw [owner?, ho.chain_eq s (ho.lt_size.1 hs)] at hr
  refine ⟨hlasts, fun ha t assigned ht => ?_⟩
  obtain ⟨r', hr', ht, hobject⟩ := ht
  obtain rfl : r = r' := Option.some.inj (hr.symm.trans hr')
  obtain rfl : u = t := Option.some.inj (hu.symm.trans ht)
  rw [← Plan.home_of_chain hs (List.mem_of_find?_eq_some hr)]
  refine (hfits ha).of_member fun harity hfn => ?_
  subst harity
  rw [hobject trivial hfn]
  rfl

/-- No member that is a function goes by the name of the object itself. -/
theorem Orderly.ne_self (ho : Orderly Γ aim plan f) {members o : ScopeId}
    (hr : Realizes Γ plan f members o) (ht : Γ.lookupOwn o name = some t) (hfn : t.IsFn) :
    name ≠ selfName := by
  rintro rfl
  obtain ⟨o', ho', heq⟩ := hr.object_eq
  obtain ⟨params, returns, rfl⟩ := hfn
  cases Ty.matches_of_equiv heq with
  | object hn hm =>
    obtain ⟨t', ht'⟩ := Bindings.mem_names_iff.1
      ((hn selfName).2 (Bindings.mem_names_iff.2 ⟨_, ht⟩))
    cases Ty.matches_of_equiv (hm selfName t' _ ht' ht) with
    | fn hp hr' =>
      exact (ho.object_eq members hr.members_lt o' ho').2.self_type _ ht' ⟨_, _, rfl⟩

/-- An object has the members of its object type, but for itself. -/
theorem Orderly.mem_members (ho : Orderly Γ aim plan f) {members o : ScopeId}
    (hr : Realizes Γ plan f members o) (ht : Γ.lookupOwn o name = some t) (hself : name ≠ selfName) :
    name ∈ f.names members := by
  obtain ⟨t', ht', -⟩ := ho.member_type hr hself ht
  exact hr.complete name (by rw [Plan.binds, ht']; rfl)

/-- Whatever an object has as a member fits the type of the member. -/
theorem Orderly.of_member (ho : Orderly Γ aim plan f) {members o : ScopeId}
    (hr : Realizes Γ plan f members o) (ht : Γ.lookupOwn o name = some t)
    (hn : name ∈ f.names members) :
    plan.home members = members ∧ (plan.object? members).isSome = true ∧
      ∃ t', plan.type? members name = some t' ∧ Ty.equiv Γ t' t = true := by
  obtain ⟨o', ho', -⟩ := hr.object_eq
  obtain ⟨hhome, hlists⟩ := ho.object_eq members hr.members_lt o' ho'
  have hself : name ≠ selfName := by
    rintro rfl
    have hb := ho.binds members selfName hn
    rw [Plan.binds, Plan.type?, hlists.self_eq] at hb
    cases hb
  exact ⟨hhome, by rw [ho']; rfl, ho.member_type hr hself ht⟩

theorem Orderly.member_fits (ho : Orderly Γ aim plan f) (ha : aim.Typed) {members o : ScopeId}
    (hr : Realizes Γ plan f members o) (ht : Γ.lookupOwn o name = some t)
    (hv : f.lookupOwn members name = some v) : v.Fits Γ aim plan f members true t := by
  obtain ⟨hhome, hobject, t', ht', heq⟩ := ho.of_member hr ht (Orderly.names_iff.2 ⟨v, hv⟩)
  obtain ⟨-, u, hu, hfits⟩ := ho.holds members name v hv
  obtain rfl : u = t' := Option.some.inj (hu.symm.trans ht')
  have hfits := hfits ha
  rw [hhome, hobject] at hfits
  exact hfits.of_equiv heq

section New

variable {l : Layout} {hlt : ∀ u ∈ l.outer, u < plan.size}
  {hhome : ∀ u ∈ l.outer, plan.home u = l.home} {own : Bindings Value}

/-- A new scope with the planned scopes around it, and with some of the planned names. -/
theorem orderly_push (ho : Orderly Γ aim plan f) (hsize : f'.size = f.size + 1)
    (houter : ∀ t, f'.outer t = if t = f.size then l.outer else f.outer t)
    (hown : ∀ t, f'.own t = if t = f.size then own else f.own t)
    (hobject : ∀ o, l.object = some o → l.home = plan.size ∧ ListsMembers Γ l.own o)
    (hnew : ∀ e ∈ own.entries, e.2.Lasts Γ aim plan f ∧
      ∃ t, Bindings.findIn e.1 l.own = some t ∧
        (aim.Typed → e.2.Fits Γ aim plan f l.home l.object.isSome t)) :
    Orderly Γ aim (plan.push l hlt hhome) f' ∧ Grows plan f (plan.push l hlt hhome) f' := by
  have hext : plan.Extends (plan.push l hlt hhome) := Plan.extends_push
  have hlayout : (plan.push l hlt hhome).layout f.size = l := ho.size_eq ▸ Plan.layout_push
  have hg : Grows plan f (plan.push l hlt hhome) f' := by
    refine ⟨hext, fun t n hn => ?_⟩
    have ht : t ≠ f.size := Nat.ne_of_lt (lt_size_of_mem_names hn)
    rwa [names, hown t, if_neg ht]
  have hp' : Planned (plan.push l hlt hhome) f' := by
    refine ⟨by rw [hsize, ← ho.size_eq]; rfl, fun t ht => ?_, fun t n hn => ?_⟩
    · rw [chain, houter t, Plan.chain]
      by_cases h : t = f.size
      · rw [if_pos h, h, hlayout]
      · have ht : t < f.size := by omega
        have hchain := ho.chain_eq t ht
        rw [← hext.chain_eq (ho.lt_size.2 ht), chain, Plan.chain] at hchain
        rw [if_neg h, hchain]
    · rw [names, hown t] at hn
      by_cases h : t = f.size
      · rw [if_pos h] at hn
        obtain ⟨v, hv⟩ := Bindings.mem_names_iff.1 hn
        obtain ⟨-, u, hu, -⟩ := hnew (n, v) (Bindings.find?_eq_some_iff.1 hv)
        rw [Plan.binds, Plan.type?, h, hlayout, hu]
        rfl
      · rw [if_neg h] at hn
        rw [hext.binds_eq (ho.lt_size.2 (lt_size_of_mem_names hn))]
        exact ho.binds t n hn
  refine ⟨⟨hp', fun t ht o hto => ?_, fun t n v hv => ?_⟩, hg⟩
  · by_cases h : t = plan.size
    · subst h
      rw [Plan.object?, Plan.layout_push] at hto
      rw [Plan.home, Plan.layout_push]
      exact hobject o hto
    · have ht : t < plan.size := Nat.lt_of_le_of_ne (Nat.le_of_lt_succ ht) h
      rw [hext.object_eq ht] at hto
      rw [hext.home_eq ht, hext.layout_eq t ht]
      exact ho.object_eq t ht o hto
  · by_cases h : t = f.size
    · rw [lookupOwn, hown t, if_pos h] at hv
      obtain ⟨hlasts, u, hu, hfits⟩ := hnew (n, v) (Bindings.find?_eq_some_iff.1 hv)
      rw [Plan.type?, Plan.home, Plan.object?, h, hlayout]
      exact ⟨hlasts.grow ho.toPlanned hp' hg, u, hu, fun ha => (hfits ha).grow hg⟩
    · rw [lookupOwn, hown t, if_neg h] at hv
      exact ho.holds_grow hp' hg hv

end New

/-- A scope for a block, inside another one. -/
theorem orderly_addChild (ho : Orderly Γ aim plan f) (hs : s < plan.size) {own : Bindings Value}
    (ts : List (String × Ty)) (place : Option Path)
    (hnew : ∀ e ∈ own.entries, e.2.Lasts Γ aim plan f ∧ ∃ t, Bindings.findIn e.1 ts = some t ∧
      (aim.Typed → e.2.Fits Γ aim plan f (plan.home s) false t)) :
    Orderly Γ aim (plan.addChild s hs ts place) (f.addChild s own) ∧
      Grows plan f (plan.addChild s hs ts place) (f.addChild s own) := by
  refine orderly_push ho (size_addChild f s own) (fun t => ?_)
    (fun t => own_addChild f t s own) (fun _ ho => nomatch ho) hnew
  rw [outer_addChild, ho.chain_eq s (ho.lt_size.1 hs)]

/-- A scope for the members of an object, which has none yet. -/
theorem orderly_addRoot (ho : Orderly Γ aim plan f) {ts : List (String × Ty)} {o : ScopeId}
    (hts : ListsMembers Γ ts o) (place : Option Path) :
    Orderly Γ aim (plan.addRoot ts (some o) place) (f.addRoot ∅) ∧
      Grows plan f (plan.addRoot ts (some o) place) (f.addRoot ∅) := by
  refine orderly_push ho (size_addRoot f ∅) (fun t => ?_) (fun t => own_addRoot f t ∅)
    (fun o' ho' => ?_) fun _ he => nomatch he
  · rw [outer_addRoot]
    split
    · next h => rw [h, outer_of_size_le (Nat.le_refl _)]
    · rfl
  · cases ho'
    exact ⟨rfl, hts⟩

theorem grows_insert (hs : s < f.size) : Grows plan f plan (f.insert s name v) := by
  refine ⟨.refl plan, fun r n hn => ?_⟩
  obtain ⟨w, hw⟩ := Orderly.names_iff.1 hn
  rw [Orderly.names_iff, lookupOwn_insert_eq hs]
  split
  · exact ⟨v, rfl⟩
  · exact ⟨w, hw⟩

/-- A planned name is bound, for the first time or again. -/
theorem planned_insert (hp : Planned plan f) (hb : plan.binds name s = true) :
    Planned plan (f.insert s name v) where
  size_eq := by rw [size_insert, hp.size_eq]
  chain_eq r hr := by rw [chain_insert, hp.chain_eq r (by rwa [size_insert] at hr)]
  binds r n hn := by
    obtain ⟨w, hw⟩ := Orderly.names_iff.1 hn
    rcases lookupOwn_insert hw with hw | ⟨rfl, rfl, -⟩
    · exact hp.binds r n (Orderly.names_iff.2 ⟨w, hw⟩)
    · exact hb

/-- New bindings that are as planned keep the scopes in order. -/
theorem Orderly.more (ho : Orderly Γ aim plan f) (hp' : Planned plan f')
    (hg : Grows plan f plan f') (hfound : ∀ r n w, f'.lookupOwn r n = some w →
      f.lookupOwn r n = some w ∨ w.Lasts Γ aim plan f' ∧ ∃ t, plan.type? r n = some t ∧
        (aim.Typed → w.Fits Γ aim plan f' (plan.home r) (plan.object? r).isSome t)) :
    Orderly Γ aim plan f' where
  toPlanned := hp'
  object_eq := ho.object_eq
  holds r n w hw := (hfound r n w hw).elim (ho.holds_grow hp' hg) id

/-- A planned name gets a value that is as planned. -/
theorem orderly_insert (ho : Orderly Γ aim plan f) (hs : s < f.size)
    (ht : plan.type? s name = some t) (hlasts : v.Lasts Γ aim plan (f.insert s name v))
    (hfits : aim.Typed →
      v.Fits Γ aim plan (f.insert s name v) (plan.home s) (plan.object? s).isSome t) :
    Orderly Γ aim plan (f.insert s name v) := by
  refine ho.more (planned_insert ho.toPlanned (by rw [Plan.binds, ht]; rfl)) (grows_insert hs)
    fun r n w hw => ?_
  rcases lookupOwn_insert hw with hw | ⟨rfl, rfl, rfl⟩
  · exact Or.inl hw
  · exact Or.inr ⟨hlasts, t, ht, hfits⟩

/-- A name that is bound gets another value of its type. -/
theorem orderly_rebind (ho : Orderly Γ aim plan f) (hn : name ∈ f.names s)
    (hlasts : v.Lasts Γ aim plan f) (hfits : aim.Typed → ∃ t, plan.type? s name = some t ∧
      v.Fits Γ aim plan f (plan.home s) (plan.object? s).isSome t) :
    Orderly Γ aim plan (f.insert s name v) ∧ v.Lasts Γ aim plan (f.insert s name v) := by
  have hs : s < f.size := lt_size_of_mem_names hn
  have hb : plan.binds name s = true := ho.binds s name hn
  have hlasts' : v.Lasts Γ aim plan (f.insert s name v) :=
    hlasts.grow ho.toPlanned (planned_insert ho.toPlanned hb) (grows_insert hs)
  refine ⟨?_, hlasts'⟩
  obtain ⟨t, ht⟩ := Option.isSome_iff_exists.1 hb
  refine orderly_insert ho hs ht hlasts' fun ha => ?_
  obtain ⟨t', ht', hfits⟩ := hfits ha
  obtain rfl : t = t' := Option.some.inj (ht.symm.trans ht')
  exact hfits.grow (grows_insert hs)

end Forest

end ObjectLang
