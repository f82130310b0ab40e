import ObjectLang.Proofs.Resolution.Heap

/-!
Where blocks and objects stand among the scopes while they are run. The statements of a block see its
own names so far and what is around it; of the names that functions hold on to, those that the block
is not going to bind are fixed around it, and stand for their declarations there. So a definition gives
a closure that lasts.
-/

namespace ObjectLang

open Forest
open Typed (Env Blocks)

/-- The names of an environment that are used are found with the types that they have there. Some of
them may be assigned to. -/
def Resolves (aim : Aim) (plan : Plan) (f : ValueScopes) (s : ScopeId) (env : Env)
    (used assigned : String → Prop) : Prop :=
  aim.Typed → ∀ n t, used n → env.lookup n = some t →
    Finds (aim.Apart (assigned n)) plan f (plan.chain s) n t

/-- The block at `β` is run in a scope that has got the names `own` and is going to get `rest`, with
other blocks around it. The names `used` are those that it needs now, some of them to be `assigned` to,
and `captured` are those that its functions hold on to. -/
structure Stands (aim : Aim) (plan : Plan) (f : ValueScopes) (s : ScopeId) (env : Blocks) (β : Path)
    (own rest : List (String × Ty)) (used assigned captured : String → Prop) : Prop where
  own_lt : s < plan.size
  names_eq : f.names s = own.map Prod.fst
  own_eq : (plan.layout s).own = own ++ rest
  object_eq : plan.object? s = none
  place_eq : plan.place s = some β
  finds : aim.Typed → ∀ n t, n ∉ own.map Prod.fst → used n → env.env.lookup n = some t →
    Finds (aim.Apart (assigned n)) plan f (plan.layout s).outer n t
  fixed : ∀ n, n ∉ (own ++ rest).map Prod.fst → captured n →
    Fixed plan f (plan.layout s).outer n
  means : ∀ n d, n ∉ (own ++ rest).map Prod.fst → captured n → env.find n = some d →
    plan.Means (plan.layout s).outer n d

/-- The block at `β` can be run in a new scope inside `s` that starts with the names `own`. -/
structure Admits (Γ : TypeScopes) (aim : Aim) (plan : Plan) (f : ValueScopes) (s : ScopeId)
    (env : Blocks) (β : Path) (returns : Option Ty) (own added : List (String × Ty))
    (body : List Stmt) : Prop where
  own_lt : s < plan.size
  plain : ∀ e ∈ own, ∃ p, e.2 = .prim p
  has : BlockHas Γ aim ((some β, own) :: env) β β returns body added
  every : Lasting aim.watched body ∧ StmtsEvery aim.Permits (Lasting aim.watched) body
  finds : aim.Typed → ∀ n t, n ∉ own.map Prod.fst → BlockUses n body → env.env.lookup n = some t →
    Finds (aim.Apart (BlockAssigns n body)) plan f (plan.chain s) n t
  fixed : ∀ n, n ∉ (own ++ added).map Prod.fst → BlockCaptures aim.watched n body →
    Fixed plan f (plan.chain s) n
  means : ∀ n d, n ∉ (own ++ added).map Prod.fst → BlockCaptures aim.watched n body →
    env.find n = some d → plan.Means (plan.chain s) n d

/-- In a function with the given result type, a text ends normally only if it does not have to return,
and what it returns is of a kind that the type promises. -/
def Completion.Obeys (returns : Option Ty) (must : Prop) : Completion → Prop
  | .normal _ => ¬ must
  | .returning v => ∃ t, returns = some t ∧ t.Includes v

/-- The members of the object at `π` are in a scope of their own, which has got the names `own`. -/
structure Houses (plan : Plan) (f : ValueScopes) (members o : ScopeId) (π : Path)
    (fields methods own : List (String × Ty)) : Prop where
  own_lt : members < plan.size
  chain_eq : plan.chain members = [members]
  object_eq : plan.object? members = some o
  place_eq : plan.place members = some π
  own_eq : (plan.layout members).own = fields ++ methods
  names_eq : f.names members = own.map Prod.fst

variable {Γ : TypeScopes} {aim : Aim} {plan plan' : Plan} {f f' : ValueScopes} {s members o : ScopeId}
  {types : Env} {env : Blocks} {β π : Path} {returns : Option Ty}
  {own added rest fields methods : List (String × Ty)}
  {used used' assigned assigned' captured captured' : String → Prop} {c : Closure} {d : DefDecl}
  {b : String × Ty} {sig : Signature}

theorem Completion.Obeys.or {must must' : Prop} {c : Completion} (h : c.Obeys returns must')
    (hmust : ¬ must) : c.Obeys returns (must ∨ must') := by
  cases c with
  | normal v => exact fun h' => h'.elim hmust h
  | returning v => exact h

theorem Completion.Obeys.mono {must must' : Prop} {c : Completion} (h : c.Obeys returns must')
    (hmust : must → must') : c.Obeys returns must := by
  cases c with
  | normal v => exact fun h' => h (hmust h')
  | returning v => exact h

theorem Resolves.imp (h : Resolves aim plan f s types used assigned) (hu : ∀ n, used' n → used n) :
    Resolves aim plan f s types used' assigned :=
  fun ha n t hn => h ha n t (hu n hn)

/-- An expression assigns to nothing. -/
theorem Resolves.plain (h : Resolves aim plan f s types used assigned) :
    Resolves aim plan f s types used fun _ => False :=
  fun ha n t hn ht => (h ha n t hn ht).imp (Aim.Apart.imp False.elim)

theorem Resolves.keep (h : Resolves aim plan f s types used assigned) (hp : Planned plan f)
    (hs : s < plan.size) (hg : Grows plan f plan' f') (hk : NamesKept f f') :
    Resolves aim plan' f' s types used assigned := by
  intro ha n t hn ht
  rw [hg.extend.chain_eq hs]
  exact (h ha n t hn ht).keep hg.extend
    (fun u hu => hk.view_eq u (hp.size_eq ▸ Plan.chain_lt hs hu)) fun u => Plan.chain_lt hs

namespace Stands

variable (h : Stands aim plan f s env β own rest used assigned captured)
include h

theorem imp (hu : ∀ n, n ∉ own.map Prod.fst → used' n → used n)
    (ha : ∀ n, n ∉ own.map Prod.fst → assigned' n → assigned n) (hc : ∀ n, captured' n → captured n) :
    Stands aim plan f s env β own rest used' assigned' captured' where
  own_lt := h.own_lt
  names_eq := h.names_eq
  own_eq := h.own_eq
  object_eq := h.object_eq
  place_eq := h.place_eq
  finds hT n t hn hu' ht := (h.finds hT n t hn (hu n hn hu') ht).imp (Aim.Apart.imp (ha n hn))
  fixed n hn hc' := h.fixed n hn (hc n hc')
  means n d hn hc' := h.means n d hn (hc n hc')

theorem outer_lt {t : ScopeId} (ht : t ∈ (plan.layout s).outer) : t < plan.size :=
  Plan.chain_lt h.own_lt (List.mem_cons_of_mem _ ht)

/-- The statements of a block find what they use and what they assign to. -/
theorem resolves : Resolves aim plan f s (Blocks.env ((some β, own) :: env)) used assigned := by
  intro ha n t hn ht
  rw [Blocks.env, List.map_cons, Env.lookup_cons] at ht
  cases hown : Bindings.findIn n own with
  | some u =>
    have hmem : n ∈ own.map Prod.fst := by
      by_contra hn
      rw [Bindings.findIn_eq_none_iff.2 hn] at hown
      cases hown
    refine ⟨s, ?_, ?_, fun _ _ => h.object_eq⟩
    · exact List.find?_cons_of_pos (containsOwn_iff.2 (h.names_eq ▸ hmem))
    · rw [Plan.type?, h.own_eq, Bindings.findIn_append, hown]
      rwa [hown] at ht
  | none =>
    have hnot : n ∉ own.map Prod.fst := Bindings.findIn_eq_none_iff.1 hown
    rw [hown, Option.none_or] at ht
    obtain ⟨r, hr, htype⟩ := h.finds ha n t hnot hn ht
    refine ⟨r, ?_, htype⟩
    rw [Plan.chain, List.find?_cons_of_neg, hr]
    rwa [containsOwn_iff, h.names_eq]

/-- What functions hold on to is fixed as soon as the block is not going to bind it. -/
theorem fixed_chain {n : String} (hc : captured n) (hrest : n ∉ rest.map Prod.fst) :
    Fixed plan f (plan.chain s) n := by
  intro t ht
  rw [Plan.chain, List.find?_cons] at ht
  cases hb : plan.binds n s with
  | true =>
    rw [hb] at ht
    obtain rfl := Option.some.inj ht
    rw [Plan.binds_iff, h.own_eq, List.map_append, List.mem_append] at hb
    exact h.names_eq ▸ hb.resolve_right hrest
  | false =>
    rw [hb] at ht
    refine h.fixed n (fun hn => ?_) hc t ht
    rw [← h.own_eq, ← Plan.binds_iff, hb] at hn
    cases hn

/-- What functions hold on to stands for its declaration as soon as the block is not going to bind
it. -/
theorem means_chain {n : String} {d : Option Path × Ty} (hc : captured n)
    (hrest : n ∉ rest.map Prod.fst) (hd : Blocks.find ((some β, own) :: env) n = some d) :
    plan.Means (plan.chain s) n d := by
  rw [Blocks.find_cons] at hd
  cases hown : Bindings.findIn n own with
  | some t =>
    rw [hown] at hd
    obtain rfl : (some β, t) = d := Option.some.inj hd
    refine Plan.means_cons_self h.place_eq ?_
    rw [Plan.type?, h.own_eq, Bindings.findIn_append, hown, Option.some_or]
  | none =>
    rw [hown] at hd
    have hnew : n ∉ (own ++ rest).map Prod.fst := by
      rw [List.map_append, List.mem_append]
      exact fun hn => hn.elim (Bindings.findIn_eq_none_iff.1 hown) hrest
    refine Plan.means_cons ?_ (h.means n d hnew hc hd)
    rwa [← Bool.not_eq_true, Plan.binds_iff, h.own_eq]

/-- The next name of a block is planned with its type. -/
theorem type_eq {names : List (String × Ty)} {n : String} (hrest : rest = b :: names)
    (hb : b.1 = n) (hn : n ∉ f.names s) : plan.type? s n = some b.2 := by
  rw [h.names_eq] at hn
  rw [Plan.type?, h.own_eq, Bindings.findIn_append, Bindings.findIn_eq_none_iff.2 hn,
    Option.none_or, hrest, Bindings.findIn, if_pos hb]

/-- The block goes on to get names, and so may newer scopes. -/
theorem grow {names : List (String × Ty)} (hrest : rest = added ++ names) (hp : Planned plan f)
    (hg : Grows plan f plan' f') (ha : AddsNames s (added.map Prod.fst) f f') :
    Stands aim plan' f' s env β (own ++ added) names used assigned captured := by
  have hsize : s < f.size := hp.size_eq ▸ h.own_lt
  have hlayout := hg.extend.layout_eq s h.own_lt
  have houter (t : ScopeId) (ht : t ∈ (plan.layout s).outer) : f'.names t = f.names t := by
    have hview := ha.view_eq t (hp.size_eq ▸ h.outer_lt ht)
    rwa [if_neg (Nat.ne_of_lt (plan.outer_lt s h.own_lt t ht)), List.append_nil] at hview
  refine ⟨Nat.lt_of_lt_of_le h.own_lt hg.extend.size_le, ?_, ?_, ?_, ?_, fun hT n t hn hu ht => ?_,
    fun n hn hc => ?_, fun n d hn hc hd => ?_⟩
  · have hview := ha.view_eq s hsize
    rw [if_pos rfl] at hview
    rw [List.map_append, ← h.names_eq]
    exact hview
  · rw [hlayout, h.own_eq, hrest, List.append_assoc]
  · rw [hg.extend.object_eq h.own_lt, h.object_eq]
  · rw [hg.extend.place_eq h.own_lt, h.place_eq]
  · rw [hlayout]
    rw [List.map_append, List.mem_append, not_or] at hn
    exact (h.finds hT n t hn.1 hu ht).keep hg.extend houter fun _ => h.outer_lt
  · rw [hlayout]
    rw [List.append_assoc, ← hrest] at hn
    exact (h.fixed n hn hc).grow hg fun _ => h.outer_lt
  · rw [hlayout]
    rw [List.append_assoc, ← hrest] at hn
    exact hg.extend.means (fun _ => h.outer_lt) (h.means n d hn hc hd)

theorem keep (hp : Planned plan f) (hg : Grows plan f plan' f')
    (hk : NamesKept f f') : Stands aim plan' f' s env β own rest used assigned captured := by
  have hgrow : Stands aim plan' f' s env β (own ++ []) rest used assigned captured :=
    h.grow rfl hp hg (hk.adds s)
  rwa [List.append_nil] at hgrow

end Stands

/-- A new scope for a block, which starts with some names. -/
theorem stands_addChild {values : Bindings Value} (hp : Planned plan f) (hs : s < plan.size)
    (hnames : values.names = own.map Prod.fst)
    (hfinds : aim.Typed → ∀ n t, n ∉ own.map Prod.fst → used n → env.env.lookup n = some t →
      Finds (aim.Apart (assigned n)) plan f (plan.chain s) n t)
    (hfixed : ∀ n, n ∉ (own ++ rest).map Prod.fst → captured n → Fixed plan f (plan.chain s) n)
    (hmeans : ∀ n d, n ∉ (own ++ rest).map Prod.fst → captured n → env.find n = some d →
      plan.Means (plan.chain s) n d)
    (hg : Grows plan f (plan.addChild s hs (own ++ rest) (some β)) (f.addChild s values)) :
    Stands aim (plan.addChild s hs (own ++ rest) (some β)) (f.addChild s values) f.size env β own rest
      used assigned captured := by
  have hlayout : (plan.addChild s hs (own ++ rest) (some β)).layout f.size =
      ⟨plan.chain s, plan.home s, own ++ rest, none, some β⟩ := hp.size_eq ▸ Plan.layout_push
  have hkept : NamesKept f (f.addChild s values) := kept_addChild
  have hlt (t : ScopeId) (ht : t ∈ plan.chain s) : t < plan.size := Plan.chain_lt hs ht
  refine ⟨?_, ?_, by rw [hlayout], by rw [Plan.object?, hlayout], by rw [Plan.place, hlayout],
    fun hT n t hn hu ht => ?_, fun n hn hc => ?_, fun n d hn hc hd => ?_⟩
  · rw [← hp.size_eq]
    exact Nat.lt_succ_self _
  · rw [names_addChild, hnames]
  · rw [hlayout]
    exact (hfinds hT n t hn hu ht).keep hg.extend
      (fun u hu => hkept.view_eq u (hp.size_eq ▸ hlt u hu)) hlt
  · rw [hlayout]
    exact (hfixed n hn hc).grow hg hlt
  · rw [hlayout]
    exact hg.extend.means hlt (hmeans n d hn hc hd)

section Admits

variable {body : List Stmt} (h : Admits Γ aim plan f s env β returns own added body)
include h

theorem Admits.keep (hp : Planned plan f) (hg : Grows plan f plan' f') (hk : NamesKept f f') :
    Admits Γ aim plan' f' s env β returns own added body where
  own_lt := Nat.lt_of_lt_of_le h.own_lt hg.extend.size_le
  plain := h.plain
  has := h.has
  every := h.every
  finds hT n t hn hu ht := by
    rw [hg.extend.chain_eq h.own_lt]
    exact (h.finds hT n t hn hu ht).keep hg.extend
      (fun u hu => hk.view_eq u (hp.size_eq ▸ Plan.chain_lt h.own_lt hu)) fun _ =>
        Plan.chain_lt h.own_lt
  fixed n hn hc := by
    rw [hg.extend.chain_eq h.own_lt]
    exact (h.fixed n hn hc).grow hg fun _ => Plan.chain_lt h.own_lt
  means n d hn hc hd := by
    rw [hg.extend.chain_eq h.own_lt]
    exact hg.extend.means (fun _ => Plan.chain_lt h.own_lt) (h.means n d hn hc hd)

/-- The names that a new scope starts with have values of primitive types. -/
theorem Admits.values_fit {values : Bindings Value} {home : ScopeId}
    (hnames : values.names = own.map Prod.fst)
    (hlasts : ∀ e ∈ values.entries, e.2.Lasts Γ aim plan f)
    (hkinds : aim.Precise → ∀ e ∈ values.entries, ∀ t, Bindings.findIn e.1 own = some t →
      t.Includes e.2) : ∀ e ∈ values.entries,
      e.2.Lasts Γ aim plan f ∧ ∃ t, Bindings.findIn e.1 (own ++ added) = some t ∧
        (aim.Typed → e.2.Fits Γ aim plan f home false t) := by
  intro e he
  have hmem : e.1 ∈ own.map Prod.fst := hnames ▸ List.mem_map_of_mem he
  cases ht : Bindings.findIn e.1 own with
  | none => exact absurd hmem (Bindings.findIn_eq_none_iff.1 ht)
  | some t =>
    obtain ⟨p, rfl⟩ := h.plain _ (Bindings.mem_entries_of_findIn ht)
    exact ⟨hlasts e he, .prim p, by rw [Bindings.findIn_append, ht, Option.some_or],
      fun _ hp => hkinds hp e he _ ht⟩

end Admits

/-- A statement can run a block in a new scope inside its own. -/
theorem Stands.admits {body : List Stmt} {names : List (String × Ty)}
    (h : Stands aim plan f s env β own rest used assigned captured)
    (hplain : ∀ e ∈ added, ∃ p, e.2 = .prim p)
    (hh : BlockHas Γ aim ((some π, added) :: (some β, own) :: env) π π returns body names)
    (he : Lasting aim.watched body ∧ StmtsEvery aim.Permits (Lasting aim.watched) body)
    (hu : ∀ n, n ∉ added.map Prod.fst → BlockUses n body → used n)
    (ha : ∀ n, n ∉ added.map Prod.fst → BlockAssigns n body → assigned n)
    (hc : ∀ n, n ∉ (added ++ names).map Prod.fst → BlockCaptures aim.watched n body → captured n)
    (hrest : ∀ n, captured n → n ∉ rest.map Prod.fst) :
    Admits Γ aim plan f s ((some β, own) :: env) π returns added names body where
  own_lt := h.own_lt
  plain := hplain
  has := hh
  every := he
  finds hT n t hn hu' ht := (h.resolves hT n t (hu n hn hu') ht).imp (Aim.Apart.imp (ha n hn))
  fixed n hn hc' := h.fixed_chain (hc n hn hc') (hrest n (hc n hn hc'))
  means n _ hn hc' := h.means_chain (hc n hn hc') (hrest n (hc n hn hc'))

/-- A function whose definition has been reached lasts. -/
theorem Stands.lasts (h : Stands aim plan f s env β own rest d.Uses d.Assigns
      ((Stmt.defStmt d).Captures aim.watched))
    (hd : d.Has Γ aim ((some β, own) :: env) (.fn d.name :: β) b)
    (he : d.Every aim.Permits (Lasting aim.watched)) (hc : Closure.ofDecl s false d = .ok c)
    (htype : plan.type? s d.name = some b.2)
    (hrest : ∀ n, (Stmt.defStmt d).Captures aim.watched n → n ∉ rest.map Prod.fst) :
    c.Lasts Γ aim plan f := by
  obtain ⟨name, params, annotations, returnType, body⟩ := d
  obtain ⟨-, -, sig, bs, hb, hlen, hbody, hends, hknows⟩ := hd
  dsimp only [Closure.ofDecl] at hc
  split at hc
  · cases hc
    refine ⟨h.own_lt, he, fun n hn => h.fixed_chain hn (hrest n hn), (some β, own) :: env, β, sig, bs,
      h.place_eq, hb ▸ htype, hlen, hbody, hknows, hends, nofun, fun ha n t hn hu ht _ => ?_,
      fun n d hn => h.means_chain hn (hrest n hn)⟩
    exact (h.resolves ha n t ⟨hn, hu⟩ ht).imp (Aim.Apart.imp fun hb => ⟨hn, hb⟩)
  · cases hc

/-- The body of a closure can be run wherever its names are found as they are where the closure was
made. -/
theorem Closure.Lies.admits {bs : List (String × Ty)} (h : c.Lies Γ aim plan f env β sig bs)
    (he : Lasting aim.watched c.body ∧ StmtsEvery aim.Permits (Lasting aim.watched) c.body)
    (hs : s < plan'.size)
    (hfinds : aim.Typed → ∀ n t, n ∉ c.params → BlockUses n c.body → env.env.lookup n = some t →
      Finds (aim.Apart (BlockAssigns n c.body)) plan' f' (plan'.chain s) n t)
    (hfixed : ∀ n, c.Captures aim.watched n → Fixed plan' f' (plan'.chain s) n)
    (hmeans : ∀ n d, c.Captures aim.watched n → env.find n = some d →
      plan'.Means (plan'.chain s) n d) :
    Admits Γ aim plan' f' s env (.fn c.name :: β) (some (.prim sig.returns))
      (c.params.zip (sig.params.map .prim)) bs c.body := by
  have hown : (c.params.zip (sig.params.map Ty.prim)).map Prod.fst = c.params :=
    List.map_fst_zip (by simp [h.length_eq])
  have hcaptures (n : String)
      (hn : n ∉ (c.params.zip (sig.params.map Ty.prim) ++ bs).map Prod.fst)
      (hb : BlockCaptures aim.watched n c.body) : c.Captures aim.watched n := by
    rw [List.map_append, List.mem_append, not_or, hown, h.has.names_eq] at hn
    exact Or.inr ⟨hn.1, hn.2, hb⟩
  refine ⟨hs, fun e he => ?_, h.has, he, fun ha n t hn => hfinds ha n t (hown ▸ hn),
    fun n hn hb => hfixed n (hcaptures n hn hb), fun n _ hn hb => hmeans n _ (hcaptures n hn hb)⟩
  obtain ⟨p, -, hp⟩ := List.mem_map.1 (List.of_mem_zip he).2
  exact ⟨p, hp.symm⟩

/-- Between a method and its object, the receiver has the type that analysis finds for it. -/
theorem Closure.Lies.find_receiver {bs : List (String × Ty)} (h : c.Lies Γ aim plan f env β sig bs)
    (hmethod : c.isMethod = true) (ho : plan.object? c.scope = some o) {n : String}
    {d : Option Path × Ty} (hd : env.find n = some d) :
    Blocks.find ((some β, [(selfName, .object o)]) :: env) n = some d := by
  obtain ⟨o', ho', hself⟩ := h.self hmethod
  obtain rfl : o' = o := Option.some.inj (ho'.symm.trans ho)
  rw [Blocks.find_cons, Bindings.findIn, Bindings.findIn]
  split
  · next heq =>
    subst heq
    exact hself.symm.trans hd
  · exact hd

/-- The closure of a definition is what the type of its name says. -/
theorem closure_fits {isMethod member : Bool} {home : ScopeId} (hd : d.Has Γ aim env π b)
    (hc : Closure.ofDecl s isMethod d = .ok c) (hs : s < plan.size)
    (htype : plan.type? s d.name = some b.2) (hhome : isMethod = true → s = home)
    (hmember : isMethod = member) :
    (Value.function (.closure c)).Fits Γ aim plan f home member b.2 := by
  obtain ⟨name, params, annotations, returnType, body⟩ := d
  obtain ⟨-, -, sig, bs, hb, hlen, -⟩ := hd
  rw [hb] at htype ⊢
  dsimp only [Closure.ofDecl] at hc
  split at hc
  · cases hc
    refine ⟨sig, rfl, _, rfl, ⟨?_, hhome, fun _ => hmember⟩, fun _ => ⟨hs, htype⟩⟩
    rw [List.length_map, hlen]
  · cases hc

section Objects

variable (hown : (Γ.own o).entries = fields ++ methods ++ [(selfName, .object o)])

theorem nodup_members (hown : (Γ.own o).entries = fields ++ methods ++ [(selfName, .object o)]) :
    ((fields ++ methods).map Prod.fst ++ [selfName]).Nodup := by
  have hnodup := (Γ.own o).names_nodup
  rw [hown, List.map_append] at hnodup
  exact hnodup

include hown

theorem self_not_member : selfName ∉ (fields ++ methods).map Prod.fst := fun hn =>
  (List.nodup_append.1 (nodup_members hown)).2.2 _ hn _ (List.mem_singleton.2 rfl) rfl

/-- The members of a new object are those of its type. -/
theorem listsMembers : ListsMembers Γ (fields ++ methods) o := by
  have hlookup (n : String) : Γ.lookupOwn o n =
      (Bindings.findIn n (fields ++ methods)).or (Bindings.findIn n [(selfName, .object o)]) := by
    rw [lookupOwn, Bindings.find?, hown, Bindings.findIn_append]
  have hself : Bindings.findIn selfName (fields ++ methods) = none :=
    Bindings.findIn_eq_none_iff.2 (self_not_member hown)
  refine ⟨hself, fun n hn => ?_, fun t ht => ?_⟩
  · rw [hlookup, Bindings.findIn, if_neg (Ne.symm hn), Bindings.findIn, Option.or_none]
  · rw [hlookup, hself] at ht
    obtain rfl : Ty.object o = t := Option.some.inj ht
    exact Ty.not_isFn_object

end Objects

namespace Houses

variable (h : Houses plan f members o π fields methods own)
include h

theorem grow (hp : Planned plan f) (hg : Grows plan f plan' f')
    (ha : AddsNames members (added.map Prod.fst) f f') :
    Houses plan' f' members o π fields methods (own ++ added) where
  own_lt := Nat.lt_of_lt_of_le h.own_lt hg.extend.size_le
  chain_eq := (hg.extend.chain_eq h.own_lt).trans h.chain_eq
  object_eq := (hg.extend.object_eq h.own_lt).trans h.object_eq
  place_eq := (hg.extend.place_eq h.own_lt).trans h.place_eq
  own_eq := by rw [hg.extend.layout_eq members h.own_lt, h.own_eq]
  names_eq := by
    have hview := ha.view_eq members (hp.size_eq ▸ h.own_lt)
    rw [if_pos rfl] at hview
    rw [List.map_append, ← h.names_eq]
    exact hview

theorem find_members {n : String} (hn : n ∈ own.map Prod.fst) :
    (plan.chain members).find? (fun t => f.containsOwn t n) = some members := by
  rw [h.chain_eq]
  exact List.find?_cons_of_pos (containsOwn_iff.2 (h.names_eq ▸ hn))

theorem binds_iff {n : String} :
    plan.binds n members = true ↔ n ∈ (fields ++ methods).map Prod.fst := by
  rw [Plan.binds_iff, h.own_eq]

/-- A member is planned with the type that the object type gives it. -/
theorem type?_eq {e : String × Ty} (he : e ∈ fields ++ methods)
    (hown : (Γ.own o).entries = fields ++ methods ++ [(selfName, .object o)]) :
    plan.type? members e.1 = some e.2 := by
  rw [Plan.type?, h.own_eq]
  exact Bindings.findIn_of_mem (List.nodup_append.1 (nodup_members hown)).1 he

theorem complete {n : String} (hcomplete : own = fields ++ methods)
    (hn : plan.binds n members = true) : n ∈ f.names members := by
  rw [h.names_eq, hcomplete]
  exact h.binds_iff.1 hn

/-- The first values of fields find those of fields before them, none of which is a function. -/
theorem resolves (hfields : fields = own ++ rest) (hplain : aim.Typed → ∀ e ∈ own, ¬ e.2.IsFn) :
    Resolves aim plan f members (Blocks.env [(some π, own)]) used assigned := by
  intro ha n t _ ht
  rw [Blocks.env, List.map_singleton, Env.lookup_singleton] at ht
  have hmem := Bindings.mem_entries_of_findIn ht
  refine ⟨members, h.find_members (List.mem_map_of_mem hmem), ?_, fun _ hfn =>
    absurd hfn (hplain ha _ hmem)⟩
  rw [Plan.type?, h.own_eq, hfields, List.append_assoc, Bindings.findIn_append, ht, Option.some_or]

/-- Among the members, a name stands for the member. -/
theorem means {n : String} {d : Option Path × Ty}
    (hd : Blocks.find [(some π, fields ++ methods ++ [(selfName, .object o)])] n = some d) :
    plan.Means (plan.chain members) n d := by
  rw [h.chain_eq]
  intro t ht
  obtain rfl : t = members := List.mem_singleton.1 (List.mem_of_find?_eq_some ht)
  have hbinds : plan.binds n t = true := List.find?_some ht
  obtain ⟨u, hu⟩ := Option.isSome_iff_exists.1 hbinds
  rw [Plan.type?, h.own_eq] at hu
  rw [Blocks.find_singleton, Bindings.findIn_append, hu] at hd
  obtain rfl : (some π, u) = d := Option.some.inj hd
  refine ⟨h.place_eq, ?_⟩
  rw [Plan.type?, h.own_eq, hu]

/-- A method lasts once all members are there. -/
theorem lasts (hcomplete : own = fields ++ methods)
    (hown : (Γ.own o).entries = fields ++ methods ++ [(selfName, .object o)])
    (hplain : aim.Typed → ∀ e ∈ fields, ¬ e.2.IsFn)
    (hapart : ∀ e ∈ methods, d.Uses e.1 → ¬ aim.Apart (d.Assigns e.1))
    (hd : d.Has Γ aim [(some π, fields ++ methods ++ [(selfName, .object o)])] (.fn d.name :: π) b)
    (he : d.Every aim.Permits (Lasting aim.watched)) (hc : Closure.ofDecl members true d = .ok c)
    (htype : plan.type? members d.name = some b.2) : c.Lasts Γ aim plan f := by
  obtain ⟨name, params, annotations, returnType, body⟩ := d
  obtain ⟨-, -, sig, bs, hb, hlen, hbody, hends, hknows⟩ := hd
  dsimp only [Closure.ofDecl] at hc
  split at hc
  · cases hc
    refine ⟨h.own_lt, he, fun n _ t ht => ?_, _, π, sig, bs, h.place_eq, hb ▸ htype, hlen, hbody,
      hknows, hends, fun _ => ⟨o, h.object_eq, ?_⟩, fun ha n t hn hu ht hself => ?_,
      fun n d _ => h.means⟩
    · rw [h.chain_eq] at ht
      obtain rfl : t = members := List.mem_singleton.1 (List.mem_of_find?_eq_some ht)
      exact h.complete hcomplete (List.find?_some ht)
    · rw [Blocks.find_singleton, Bindings.findIn_append,
        Bindings.findIn_eq_none_iff.2 (self_not_member hown)]
      rfl
    · have hself : n ≠ selfName := fun heq => hself ⟨rfl, heq⟩
      rw [Blocks.env, List.map_singleton, Env.lookup_singleton, Bindings.findIn_append,
        Bindings.findIn, if_neg (Ne.symm hself), Bindings.findIn, Option.or_none] at ht
      have hmem := Bindings.mem_entries_of_findIn ht
      refine ⟨members, h.find_members (hcomplete ▸ List.mem_map_of_mem hmem), ?_,
        fun happly hfn => ?_⟩
      · rw [Plan.type?, h.own_eq, ht]
      · rcases List.mem_append.1 hmem with hmem | hmem
        · exact absurd hfn (hplain ha _ hmem)
        · exact absurd (Aim.Apart.imp (fun hb => ⟨hn, hb⟩) happly) (hapart _ hmem ⟨hn, hu⟩)
  · cases hc

/-- An object with all its members is one of its object type. -/
theorem realizes (hcomplete : own = fields ++ methods) : Realizes Γ plan f members o where
  members_lt := h.own_lt
  object_eq := ⟨o, h.object_eq, Ty.equiv_refl Γ _⟩
  complete _ := h.complete hcomplete

end Houses

end ObjectLang
