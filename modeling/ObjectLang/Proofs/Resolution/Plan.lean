import ObjectLang.Proofs.Resolution.Rules
import ObjectLang.Proofs.Scope.Visibility
import ObjectLang.Values.Basic

/-!
Plans for scopes that are still being filled. What a block is ever going to bind is known when its
scope is made, so every scope has a layout from the start, and later plans only have more scopes. A
name is `Fixed` on a way out when the first scope that will ever bind it there has it already; then
it is found in that scope for good.
-/

namespace ObjectLang

/-- A scope as it is going to be: the scopes around it, the outermost of these (or the scope itself),
all names with their types, the object type whose members they are, if they are members, and where the
block of the scope is, if it is in the program. -/
structure Layout where
  outer : List ScopeId
  home : ScopeId
  own : List (String × Ty)
  object : Option ScopeId
  place : Option Path

/-- The layouts of all scopes made so far. -/
structure Plan where
  size : Nat
  layout : ScopeId → Layout
  outer_lt : ∀ t < size, ∀ u ∈ (layout t).outer, u < t
  home_eq : ∀ t < size, ∀ u ∈ (layout t).outer, (layout u).home = (layout t).home

namespace Plan

/-- A scope and the scopes around it, innermost first. -/
def chain (plan : Plan) (s : ScopeId) : List ScopeId := s :: (plan.layout s).outer

def home (plan : Plan) (s : ScopeId) : ScopeId := (plan.layout s).home

def object? (plan : Plan) (s : ScopeId) : Option ScopeId := (plan.layout s).object

def place (plan : Plan) (s : ScopeId) : Option Path := (plan.layout s).place

/-- The type that a scope itself is going to have for a name. -/
def type? (plan : Plan) (s : ScopeId) (name : String) : Option Ty :=
  Bindings.findIn name (plan.layout s).own

def binds (plan : Plan) (name : String) (s : ScopeId) : Bool := (plan.type? s name).isSome

/-- The scope has the members of an object, and the name is that of a function among them. -/
def HasMethod (plan : Plan) (s : ScopeId) (name : String) : Prop :=
  plan.object? s ≠ none ∧ ∃ t, plan.type? s name = some t ∧ t.IsFn

/-- The nearest scope that is going to bind a name. -/
def owner? (plan : Plan) (s : ScopeId) (name : String) : Option ScopeId :=
  (plan.chain s).find? (plan.binds name)

/-- If the name is planned in some of the scopes, it stands for the declaration `d` there: the first of
them is for the block at that place, and plans that type. -/
def Means (plan : Plan) (scopes : List ScopeId) (name : String) (d : Option Path × Ty) : Prop :=
  ∀ t, scopes.find? (plan.binds name) = some t → plan.place t = d.1 ∧ plan.type? t name = some d.2

/-- All scopes are at their places. -/
def Locates (plan : Plan) (place : ScopeId → Option Path) : Prop :=
  ∀ t < plan.size, place t = plan.place t

/-- A plan for all the scopes of another one, and for more. -/
structure Extends (plan plan' : Plan) : Prop where
  size_le : plan.size ≤ plan'.size
  layout_eq : ∀ t < plan.size, plan'.layout t = plan.layout t

variable {plan plan' : Plan} {s t : ScopeId} {name : String} {d : Option Path × Ty}

theorem binds_iff : plan.binds name s = true ↔ name ∈ (plan.layout s).own.map Prod.fst := by
  rw [binds, type?, Option.isSome_iff_ne_none, ne_eq, Bindings.findIn_eq_none_iff, Decidable.not_not]

theorem Extends.refl (plan : Plan) : Extends plan plan := ⟨Nat.le_refl _, fun _ _ => rfl⟩

theorem Extends.trans {plan'' : Plan} (h : Extends plan plan') (h' : Extends plan' plan'') :
    Extends plan plan'' where
  size_le := Nat.le_trans h.size_le h'.size_le
  layout_eq t ht :=
    (h'.layout_eq t (Nat.lt_of_lt_of_le ht h.size_le)).trans (h.layout_eq t ht)

theorem chain_lt (hs : s < plan.size) (ht : t ∈ plan.chain s) : t < plan.size := by
  rcases List.mem_cons.1 ht with rfl | ht
  · exact hs
  · exact Nat.lt_trans (plan.outer_lt s hs t ht) hs

theorem home_of_chain (hs : s < plan.size) (ht : t ∈ plan.chain s) : plan.home t = plan.home s := by
  rcases List.mem_cons.1 ht with rfl | ht
  · rfl
  · exact plan.home_eq s hs t ht

section Extended

variable (h : Extends plan plan') (hs : s < plan.size)
include h hs

theorem Extends.chain_eq : plan'.chain s = plan.chain s := by rw [chain, chain, h.layout_eq s hs]

theorem Extends.home_eq : plan'.home s = plan.home s := by rw [home, home, h.layout_eq s hs]

theorem Extends.object_eq : plan'.object? s = plan.object? s := by
  rw [object?, object?, h.layout_eq s hs]

theorem Extends.place_eq : plan'.place s = plan.place s := by rw [place, place, h.layout_eq s hs]

theorem Extends.type_eq : plan'.type? s name = plan.type? s name := by
  rw [type?, type?, h.layout_eq s hs]

theorem Extends.hasMethod_iff : plan'.HasMethod s name ↔ plan.HasMethod s name := by
  rw [HasMethod, HasMethod, h.object_eq hs, h.type_eq hs]

theorem Extends.binds_eq : plan'.binds name s = plan.binds name s := by
  rw [binds, binds, h.type_eq hs]

end Extended

theorem Extends.find_binds {scopes : List ScopeId} (h : Extends plan plan')
    (hlt : ∀ t ∈ scopes, t < plan.size) :
    scopes.find? (plan'.binds name) = scopes.find? (plan.binds name) := by
  induction scopes with
  | nil => rfl
  | cons t ts ih =>
    rw [List.find?_cons, List.find?_cons, h.binds_eq (hlt t (List.mem_cons_self ..)),
      ih fun u hu => hlt u (List.mem_cons_of_mem _ hu)]

theorem Extends.owner_eq (h : Extends plan plan') (hs : s < plan.size) :
    plan'.owner? s name = plan.owner? s name := by
  rw [owner?, owner?, h.chain_eq hs, h.find_binds fun _ => chain_lt hs]

theorem Extends.means {scopes : List ScopeId} (h : Extends plan plan')
    (hlt : ∀ t ∈ scopes, t < plan.size) (hd : plan.Means scopes name d) :
    plan'.Means scopes name d := by
  intro t ht
  rw [h.find_binds hlt] at ht
  have hmem : t < plan.size := hlt t (List.mem_of_find?_eq_some ht)
  rw [h.place_eq hmem, h.type_eq hmem]
  exact hd t ht

/-- A name that the first scope plans stands for its declaration there. -/
theorem means_cons_self {scopes : List ScopeId} (hplace : plan.place s = d.1)
    (htype : plan.type? s name = some d.2) : plan.Means (s :: scopes) name d := by
  intro t ht
  rw [List.find?_cons_of_pos (by rw [binds, htype]; rfl)] at ht
  obtain rfl := Option.some.inj ht
  exact ⟨hplace, htype⟩

/-- A name that the first scope does not plan is looked for further out. -/
theorem means_cons {scopes : List ScopeId} (hs : plan.binds name s = false)
    (hd : plan.Means scopes name d) : plan.Means (s :: scopes) name d := by
  intro t ht
  rw [List.find?_cons_of_neg (by simp [hs])] at ht
  exact hd t ht

/-- One more scope, inside older ones. -/
def push (plan : Plan) (l : Layout) (hlt : ∀ u ∈ l.outer, u < plan.size)
    (hhome : ∀ u ∈ l.outer, plan.home u = l.home) : Plan where
  size := plan.size + 1
  layout t := if t = plan.size then l else plan.layout t
  outer_lt t ht u hu := by
    split at hu
    · next h => exact h ▸ hlt u hu
    · next h => exact plan.outer_lt t (Nat.lt_of_le_of_ne (Nat.le_of_lt_succ ht) h) u hu
  home_eq t ht u hu := by
    split at hu
    · next h =>
      rw [if_pos h, if_neg (Nat.ne_of_lt (hlt u hu))]
      exact hhome u hu
    · next h =>
      have ht : t < plan.size := Nat.lt_of_le_of_ne (Nat.le_of_lt_succ ht) h
      have hu' : u < plan.size := Nat.lt_trans (plan.outer_lt t ht u hu) ht
      rw [if_neg h, if_neg (Nat.ne_of_lt hu')]
      exact plan.home_eq t ht u hu

/-- A scope inside another one, for a block at some place. -/
def addChild (plan : Plan) (parent : ScopeId) (h : parent < plan.size) (own : List (String × Ty))
    (place : Option Path) : Plan :=
  plan.push ⟨plan.chain parent, plan.home parent, own, none, place⟩ (fun _ => chain_lt h)
    fun _ => home_of_chain h

/-- A scope that nothing is around, with the members of an object type, or with other names. -/
def addRoot (plan : Plan) (own : List (String × Ty)) (object : Option ScopeId)
    (place : Option Path) : Plan :=
  plan.push ⟨[], plan.size, own, object, place⟩ (fun _ hu => nomatch hu) fun _ hu => nomatch hu

section Pushed

variable {l : Layout} {hlt : ∀ u ∈ l.outer, u < plan.size}
  {hhome : ∀ u ∈ l.outer, plan.home u = l.home}

theorem extends_push : Extends plan (plan.push l hlt hhome) where
  size_le := Nat.le_succ _
  layout_eq _ ht := if_neg (Nat.ne_of_lt ht)

theorem layout_push : (plan.push l hlt hhome).layout plan.size = l := if_pos rfl

end Pushed

end Plan

namespace Forest

/-- A forest has the scopes of a plan, each with some of the names that it is going to have. -/
structure Planned (plan : Plan) (f : ValueScopes) : Prop where
  size_eq : plan.size = f.size
  chain_eq : ∀ t < f.size, f.chain t = plan.chain t
  binds : ∀ t n, n ∈ f.names t → plan.binds n t = true

/-- Scopes, with the plan for them, that have come from others by adding scopes and names. -/
structure Grows (plan : Plan) (f : ValueScopes) (plan' : Plan) (f' : ValueScopes) : Prop where
  extend : plan.Extends plan'
  names_mono : ∀ t n, n ∈ f.names t → n ∈ f'.names t

/-- The first of the scopes that is ever going to bind the name has it already. -/
def Fixed (plan : Plan) (f : ValueScopes) (scopes : List ScopeId) (name : String) : Prop :=
  ∀ t, scopes.find? (plan.binds name) = some t → name ∈ f.names t

/-- The first of the scopes that has the name has it with the given type. Where functions are kept
apart from methods, one that is found in this way is no method. -/
def Finds (apart : Prop) (plan : Plan) (f : ValueScopes) (scopes : List ScopeId) (name : String)
    (type : Ty) : Prop :=
  ∃ t, scopes.find? (fun t => f.containsOwn t name) = some t ∧ plan.type? t name = some type ∧
    (apart → type.IsFn → plan.object? t = none)

variable {apart apart' : Prop} {plan plan' plan'' : Plan} {f f' f'' : ValueScopes} {scopes : List ScopeId}
  {s : ScopeId} {name : String} {type : Ty}

theorem Grows.refl (plan : Plan) (f : ValueScopes) : Grows plan f plan f :=
  ⟨.refl plan, fun _ _ => id⟩

theorem Grows.trans (h : Grows plan f plan' f') (h' : Grows plan' f' plan'' f'') :
    Grows plan f plan'' f'' :=
  ⟨h.extend.trans h'.extend, fun t n hn => h'.names_mono t n (h.names_mono t n hn)⟩

theorem find?_of_imp {α : Type} {p q : α → Bool} {l : List α} {a : α} (hp : l.find? p = some a)
    (hq : q a = true) (h : ∀ b ∈ l, q b = true → p b = true) : l.find? q = some a := by
  induction l with
  | nil => cases hp
  | cons b l ih =>
    rw [List.find?_cons] at hp ⊢
    cases hb : p b with
    | true =>
      rw [hb] at hp
      obtain rfl := Option.some.inj hp
      rw [hq]
    | false =>
      rw [hb] at hp
      have hqb : q b = false := by
        rw [← Bool.not_eq_true]
        intro hqb
        rw [h b (List.mem_cons_self ..) hqb] at hb
        cases hb
      rw [hqb]
      exact ih hp fun c hc => h c (List.mem_cons_of_mem _ hc)

/-- A name that is fixed is found where it is planned. -/
theorem Fixed.find (h : Fixed plan f scopes name) (hp : Planned plan f) :
    scopes.find? (fun t => f.containsOwn t name) = scopes.find? (plan.binds name) := by
  have himp (t : ScopeId) (ht : f.containsOwn t name = true) : plan.binds name t = true :=
    hp.binds t name (containsOwn_iff.1 ht)
  cases hf : scopes.find? (plan.binds name) with
  | none =>
    rw [List.find?_eq_none] at hf ⊢
    exact fun t ht hn => hf t ht (himp t hn)
  | some t => exact find?_of_imp hf (containsOwn_iff.2 (h t hf)) fun u _ => himp u

theorem Fixed.owner_eq (h : Fixed plan f (plan.chain s) name) (hp : Planned plan f)
    (hs : s < f.size) : f.owner? s name = plan.owner? s name := by
  rw [owner?, hp.chain_eq s hs]
  exact h.find hp

theorem Fixed.grow (h : Fixed plan f scopes name) (hg : Grows plan f plan' f')
    (hlt : ∀ t ∈ scopes, t < plan.size) : Fixed plan' f' scopes name := by
  intro t ht
  rw [hg.extend.find_binds hlt] at ht
  exact hg.names_mono t name (h t ht)

theorem Finds.imp (h : Finds apart plan f scopes name type) (ha : apart' → apart) :
    Finds apart' plan f scopes name type := by
  obtain ⟨t, ht, htype, hobject⟩ := h
  exact ⟨t, ht, htype, fun h => hobject (ha h)⟩

/-- What is fixed is always found in the same place. -/
theorem Finds.grow (h : Finds apart plan f scopes name type) (hfix : Fixed plan f scopes name)
    (hp : Planned plan f) (hp' : Planned plan' f') (hg : Grows plan f plan' f')
    (hlt : ∀ t ∈ scopes, t < plan.size) : Finds apart plan' f' scopes name type := by
  obtain ⟨t, ht, htype, hobject⟩ := h
  have hmem : t < plan.size := hlt t (List.mem_of_find?_eq_some ht)
  refine ⟨t, ?_, ?_, ?_⟩
  · rw [(hfix.grow hg hlt).find hp', hg.extend.find_binds hlt, ← hfix.find hp, ht]
  · rw [hg.extend.type_eq hmem, htype]
  · rw [hg.extend.object_eq hmem]
    exact hobject

/-- What is found in scopes that get no names is found there again. -/
theorem Finds.keep (h : Finds apart plan f scopes name type) (hext : plan.Extends plan')
    (hnames : ∀ t ∈ scopes, f'.names t = f.names t) (hlt : ∀ t ∈ scopes, t < plan.size) :
    Finds apart plan' f' scopes name type := by
  obtain ⟨t, ht, htype, hobject⟩ := h
  have hmem : t < plan.size := hlt t (List.mem_of_find?_eq_some ht)
  have hcontains (u : ScopeId) (hu : u ∈ scopes) :
      f'.containsOwn u name = f.containsOwn u name := by
    rw [Bool.eq_iff_iff, containsOwn_iff, containsOwn_iff, hnames u hu]
  refine ⟨t, ?_, ?_, ?_⟩
  · refine find?_of_imp ht ?_ fun u hu hn => ?_
    · rw [hcontains t (List.mem_of_find?_eq_some ht)]
      simpa using List.find?_some ht
    · rwa [← hcontains u hu]
  · rw [hext.type_eq hmem, htype]
  · rw [hext.object_eq hmem]
    exact hobject

end Forest

end ObjectLang
