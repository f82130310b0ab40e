import Mathlib.Data.List.Forall2
import ObjectLang.Evaluation.Operator
import ObjectLang.Proofs.Pairing.Names
import ObjectLang.Proofs.Scope.Aligned
import ObjectLang.Proofs.Values.Depth
import ObjectLang.Values.Inspect

/-!
Values of two runs, the second with more scopes from the start than the first. From some scope on all
scopes of the second run have higher numbers, and so have the scopes in values. Nothing that is told
of a value shows the numbers.
-/

namespace ObjectLang

/-- How the scopes of a second run have other numbers than those of a first. -/
structure Shift where
  /-- The scopes below have the same numbers in both runs. -/
  base : Nat
  /-- How many scopes the second run has between the scopes below `base` and all others. -/
  width : Nat
  /-- Names that the scopes below `base` may bind to anything in either run. -/
  hidden : List String

namespace Shift

variable (N : Shift) {s t : Nat}

/-- The number of a scope in the second run. -/
def move (s : Nat) : Nat := if s < N.base then s else s + N.width

theorem move_of_lt (h : s < N.base) : N.move s = s := if_pos h

theorem move_of_le (h : N.base ≤ s) : N.move s = s + N.width := if_neg (Nat.not_lt.2 h)

theorem move_injective : Function.Injective N.move := by
  intro s t h
  unfold move at h
  split at h <;> split at h <;> omega

end Shift

variable {N : Shift} {Γ Δ : ValueScopes} {v v' w w' : Value}

/-- A function of the second run. What a closure runs does without the hidden names. -/
inductive Callable.Moved (N : Shift) : Callable → Callable → Prop
  | native (f : Native) : Moved N (.native f) (.native f)
  | named (name : String) : Moved N (.named name) (.named name)
  | closure (c : Closure) (body : BlockAvoids N.hidden c.body) :
    Moved N (.closure c) (.closure { c with scope := N.move c.scope })

/-- A value of the second run, with other numbers for its scopes. -/
inductive Value.Moved (N : Shift) : Value → Value → Prop
  | nil : Moved N .nil .nil
  | boolean (b : Bool) : Moved N (.boolean b) (.boolean b)
  | integer (n : Int) : Moved N (.integer n) (.integer n)
  | decimal (d : Decimal) : Moved N (.decimal d) (.decimal d)
  | string (s : String) : Moved N (.string s) (.string s)
  | character (c : Char) : Moved N (.character c) (.character c)
  | list {vs ws : List Value} (items : List.Forall₂ (Moved N) vs ws) : Moved N (.list vs) (.list ws)
  | function {f g : Callable} (h : f.Moved N g) : Moved N (.function f) (.function g)
  | object (name : Option String) {a : ScopeId} (members : N.base ≤ a) :
    Moved N (.object name a) (.object name (N.move a))

namespace Value

theorem Moved.kind_eq (h : Moved N v v') : v.kind = v'.kind := by cases h <;> rfl

theorem name_eq_of_moved {f g : Callable} (h : f.Moved N g) : f.name = g.name := by cases h <;> rfl

theorem Moved.agree_eq (hv : Moved N v v') (hw : Moved N w w') : agree v w = agree v' w' := by
  cases hv <;> cases hw <;> try rfl
  · next hf _ _ hg => simp only [agree, name_eq_of_moved hf, name_eq_of_moved hg]
  · simp only [agree, N.move_injective.eq_iff]

theorem Moved.less?_eq (hv : Moved N v v') (hw : Moved N w w') : less? v w = less? v' w' := by
  cases hv <;> cases hw <;> rfl

theorem Moved.lessEq?_eq (hv : Moved N v v') (hw : Moved N w w') : lessEq? v w = lessEq? v' w' := by
  cases hv <;> cases hw <;> rfl

mutual

theorem moved_of_literal (l : Literal) : Moved N l.toValue l.toValue := by
  match l with
  | .nil => exact .nil
  | .boolean b => exact .boolean b
  | .integer n => exact .integer n
  | .decimal d => exact .decimal d
  | .string s => exact .string s
  | .character c => exact .character c
  | .function name => exact .function (.named name)
  | .list items => exact .list (moved_of_literals items)

theorem moved_of_literals (ls : List Literal) :
    List.Forall₂ (Moved N) (Literal.toValues ls) (Literal.toValues ls) := by
  match ls with
  | [] => exact .nil
  | l :: ls => exact .cons (moved_of_literal l) (moved_of_literals ls)

end

end Value

/-- The scopes of the second run. -/
structure Forest.Moved (N : Shift) (Γ Δ : ValueScopes) : Prop where
  base_le : N.base ≤ Γ.size
  size_eq : Δ.size = Γ.size + N.width
  outer_eq : ∀ s, Δ.outer (N.move s) = (Γ.outer s).map N.move
  new : ∀ s, N.base ≤ s → Bindings.Aligned (Value.Moved N) (Γ.own s) (Δ.own (N.move s))
  old : ∀ s, s < N.base → ∀ name, name ∉ N.hidden →
    Option.Rel (Value.Moved N) ((Γ.own s).find? name) ((Δ.own s).find? name)

/-- There is nothing to bind in a scope that does not exist. -/
theorem Forest.own_insert_of_size_le {α : Type} {f : Forest α} {s t : ScopeId} {name : String}
    {value : α} (h : f.size ≤ t) : (f.insert t name value).own s = f.own s := by
  by_cases hs : s = t
  · rw [hs, own_of_size_le (by simpa using h), own_of_size_le h]
  · exact own_insert_of_ne _ _ hs

namespace Forest.Moved

open Bindings

variable {s t : Nat} {name : String} {own own' : Bindings Value} (h : Γ.Moved N Δ)
include h

theorem move_size : N.move Γ.size = Δ.size := by rw [N.move_of_le h.base_le, h.size_eq]

theorem move_eq_size_iff : N.move s = Δ.size ↔ s = Γ.size := by
  rw [← h.move_size, N.move_injective.eq_iff]

theorem lt_of_base_gt (hs : s < N.base) : s < Γ.size := Nat.lt_of_lt_of_le hs h.base_le

theorem move_lt_size : N.move s < Δ.size ↔ s < Γ.size := by
  have hbase := h.base_le
  have hsize := h.size_eq
  unfold Shift.move
  split <;> omega

theorem chain_eq (s : ScopeId) : Δ.chain (N.move s) = (Γ.chain s).map N.move := by
  rw [chain, chain, h.outer_eq, List.map_cons]

/-- What a scope itself has at a name that is not hidden, or at any name if the scope is new. -/
theorem lookupOwn (hname : name ∉ N.hidden ∨ N.base ≤ s) :
    Option.Rel (Value.Moved N) (Γ.lookupOwn s name) (Δ.lookupOwn (N.move s) name) := by
  by_cases hs : s < N.base
  · rw [N.move_of_lt hs]
    exact h.old s hs name (hname.resolve_right (Nat.not_le.2 hs))
  · exact (h.new s (Nat.not_lt.1 hs)).matching name

theorem containsOwn_eq (hname : name ∉ N.hidden ∨ N.base ≤ s) :
    Γ.containsOwn s name = Δ.containsOwn (N.move s) name := by
  rw [containsOwn, containsOwn, contains_eq_isSome, contains_eq_isSome]
  exact isSome_eq_of_rel (h.lookupOwn hname)

variable (hname : name ∉ N.hidden)
include hname

theorem lookup (s : ScopeId) :
    Option.Rel (Value.Moved N) (Γ.lookup s name) (Δ.lookup (N.move s) name) := by
  rw [Forest.lookup, Forest.lookup, h.chain_eq]
  induction Γ.chain s with
  | nil => exact .none
  | cons t ts ih =>
    have ht := h.lookupOwn (s := t) (.inl hname)
    rw [List.map_cons, List.findSome?_cons, List.findSome?_cons]
    generalize Γ.lookupOwn t name = o, Δ.lookupOwn (N.move t) name = o' at ht
    cases ht with
    | none => exact ih
    | some hv => exact .some hv

theorem contains_eq (s : ScopeId) : Γ.contains s name = Δ.contains (N.move s) name := by
  rw [contains, contains, h.chain_eq, List.any_map]
  exact congrArg (List.any (Γ.chain s)) (funext fun t => h.containsOwn_eq (.inl hname))

theorem owner?_eq (s : ScopeId) : Δ.owner? (N.move s) name = (Γ.owner? s name).map N.move := by
  rw [owner?, owner?, h.chain_eq, List.find?_map]
  congr 2
  funext t
  exact (h.containsOwn_eq (.inl hname)).symm

omit hname

/-- A new scope inside another. -/
theorem addChild (hown : Aligned (Value.Moved N) own own') (s : ScopeId) :
    (Γ.addChild s own).Moved N (Δ.addChild (N.move s) own') where
  base_le := by simpa using Nat.le_succ_of_le h.base_le
  size_eq := by
    rw [size_addChild, size_addChild, h.size_eq]
    omega
  outer_eq t := by
    rw [outer_addChild, outer_addChild, h.chain_eq]
    simp only [h.move_eq_size_iff, h.outer_eq]
    split <;> rfl
  new t ht := by
    rw [own_addChild, own_addChild]
    simp only [h.move_eq_size_iff]
    split
    · exact hown
    · exact h.new t ht
  old t ht := by
    have htΓ : t ≠ Γ.size := Nat.ne_of_lt (h.lt_of_base_gt ht)
    have htΔ : t ≠ Δ.size := fun he => htΓ (h.move_eq_size_iff.1 ((N.move_of_lt ht).trans he))
    rw [own_addChild, own_addChild, if_neg htΓ, if_neg htΔ]
    exact h.old t ht

/-- A new scope that nothing is around. -/
theorem addRoot (hown : Aligned (Value.Moved N) own own') :
    (Γ.addRoot own).Moved N (Δ.addRoot own') where
  base_le := by simpa using Nat.le_succ_of_le h.base_le
  size_eq := by
    rw [size_addRoot, size_addRoot, h.size_eq]
    omega
  outer_eq t := by rw [outer_addRoot, outer_addRoot, h.outer_eq]
  new t ht := by
    rw [own_addRoot, own_addRoot]
    simp only [h.move_eq_size_iff]
    split
    · exact hown
    · exact h.new t ht
  old t ht := by
    have htΓ : t ≠ Γ.size := Nat.ne_of_lt (h.lt_of_base_gt ht)
    have htΔ : t ≠ Δ.size := fun he => htΓ (h.move_eq_size_iff.1 ((N.move_of_lt ht).trans he))
    rw [own_addRoot, own_addRoot, if_neg htΓ, if_neg htΔ]
    exact h.old t ht

theorem insert (hname : name ∉ N.hidden ∨ N.base ≤ s) (hv : v.Moved N v') :
    (Γ.insert s name v).Moved N (Δ.insert (N.move s) name v') where
  base_le := by simpa using h.base_le
  size_eq := by rw [size_insert, size_insert, h.size_eq]
  outer_eq t := by rw [outer_insert, outer_insert, h.outer_eq]
  new t ht := by
    by_cases hs : s < Γ.size
    · rw [own_insert _ _ _ hs, own_insert _ _ _ (h.move_lt_size.2 hs)]
      simp only [N.move_injective.eq_iff]
      split
      · next hts =>
        subst hts
        exact (h.new t ht).insert name hv
      · exact h.new t ht
    · have hs := Nat.not_lt.1 hs
      have hsΔ : Δ.size ≤ N.move s := Nat.not_lt.1 fun hlt => Nat.not_lt.2 hs (h.move_lt_size.1 hlt)
      rw [own_insert_of_size_le hs, own_insert_of_size_le hsΔ]
      exact h.new t ht
  old t ht other hother := by
    by_cases hts : t = s
    · subst hts
      have htΓ := h.lt_of_base_gt ht
      have htΔ : t < Δ.size := by
        have := h.move_lt_size.2 htΓ
        rwa [N.move_of_lt ht] at this
      rw [N.move_of_lt ht, own_insert _ _ _ htΓ, own_insert _ _ _ htΔ, if_pos rfl, if_pos rfl,
        find?_insert, find?_insert]
      split
      · exact .some hv
      · exact h.old t ht other hother
    · have htsΔ : t ≠ N.move s := fun he => hts (N.move_injective ((N.move_of_lt ht).trans he))
      rw [own_insert_of_ne _ _ hts, own_insert_of_ne _ _ htsΔ]
      exact h.old t ht other hother

end Forest.Moved

theorem mapM_eq_of_forall₂ {m : Type → Type} [Monad m] [LawfulMonad m] {α β γ : Type}
    {R : α → β → Prop} {f : α → m γ} {g : β → m γ} {as : List α} {bs : List β}
    (h : List.Forall₂ R as bs) (hfg : ∀ a b, R a b → f a = g b) : as.mapM f = bs.mapM g := by
  induction h with
  | nil => rfl
  | cons hab _ ih => rw [List.mapM_cons, List.mapM_cons, hfg _ _ hab, ih]

namespace Value

/-! The text of a value by its construction. -/

mutual

theorem inspect_moved (h : Γ.Moved N Δ) (v : Value) {w : Value} (hvw : Moved N v w) :
    inspect Γ v = inspect Δ w := by
  match v, hvw with
  | .nil, .nil | .boolean _, .boolean _ | .integer _, .integer _ | .decimal _, .decimal _
  | .string _, .string _ | .character _, .character _ => rfl
  | .list vs, .list hvs => simp only [inspect, inspectAll_moved h vs hvs]
  | .function _, .function hf => simp only [inspect, name_eq_of_moved hf]
  | .object _ _, .object _ ha =>
    simp only [inspect, Forest.describe, Forest.names, (h.new _ ha).names_eq]

theorem inspectAll_moved (h : Γ.Moved N Δ) (vs : List Value) {ws : List Value}
    (hvw : List.Forall₂ (Moved N) vs ws) : inspectAll Γ vs = inspectAll Δ ws := by
  match vs, hvw with
  | [], .nil => rfl
  | v :: vs, .cons hv hvs => simp only [inspectAll, inspect_moved h v hv, inspectAll_moved h vs hvs]

end

/-! The text of a value as programs print it. -/

section Display

variable {show₁ show₂ : Option String → ScopeId → Option String}

mutual

theorem displayWith_moved
    (hshow : ∀ name a, N.base ≤ a → show₁ name a = show₂ name (N.move a)) (v : Value) {w : Value}
    (hvw : Moved N v w) : displayWith show₁ v = displayWith show₂ w := by
  match v, hvw with
  | .nil, .nil | .boolean _, .boolean _ | .integer _, .integer _ | .decimal _, .decimal _
  | .string _, .string _ | .character _, .character _ => rfl
  | .list vs, .list hvs => simp only [displayWith, displayAllWith_moved hshow vs hvs]
  | .function _, .function hf => simp only [displayWith, name_eq_of_moved hf]
  | .object _ _, .object _ ha => exact hshow _ _ ha

theorem displayAllWith_moved
    (hshow : ∀ name a, N.base ≤ a → show₁ name a = show₂ name (N.move a)) (vs : List Value)
    {ws : List Value} (hvw : List.Forall₂ (Moved N) vs ws) :
    displayAllWith show₁ vs = displayAllWith show₂ ws := by
  match vs, hvw with
  | [], .nil => rfl
  | v :: vs, .cons hv hvs =>
    simp only [displayAllWith, displayWith_moved hshow v hv, displayAllWith_moved hshow vs hvs]

end

theorem displayObject_moved (h : Γ.Moved N Δ) (depth : Nat) (name : Option String) (a : ScopeId)
    (ha : N.base ≤ a) : displayObject Γ depth name a = displayObject Δ depth name (N.move a) := by
  induction depth generalizing name a with
  | zero => rfl
  | succ depth ih =>
    rw [displayObject, displayObject]
    congr 1
    refine mapM_eq_of_forall₂ (h.new a ha) fun e e' he => ?_
    rw [displayWith_moved ih e.2 he.2, he.1]

/-- The second run prints the same, or finds as well that the text has no end. -/
theorem display?_moved (h : Γ.Moved N Δ) (hvw : Moved N v w) : v.display? Γ = w.display? Δ := by
  have hle : Γ.size < Δ.size + 1 := by
    rw [h.size_eq]
    omega
  rw [display?, display?, ← displayObject_of_size_lt hle]
  exact displayWith_moved (displayObject_moved h _) v hvw

end Display

/-! Equality of values. -/

section Equality

variable {objects₁ objects₂ : ScopeId → ScopeId → Option Bool}

mutual

theorem equalWith_moved
    (hobjects : ∀ a b, N.base ≤ a → N.base ≤ b → objects₁ a b = objects₂ (N.move a) (N.move b))
    (v w : Value) {v' w' : Value} (hv : Moved N v v') (hw : Moved N w w') :
    equalWith objects₁ v w = equalWith objects₂ v' w' := by
  match v, w, hv, hw with
  | .list vs, .list ws, .list hvs, .list hws =>
    simp only [equalWith, hvs.length_eq, hws.length_eq, equalAllWith_moved hobjects vs ws hvs hws]
  | .object _ a, .object _ b, .object _ ha, .object _ hb =>
    simp only [equalWith, N.move_injective.eq_iff, hobjects a b ha hb]
  | .nil, _, .nil, hw | .boolean _, _, .boolean _, hw | .integer _, _, .integer _, hw
  | .decimal _, _, .decimal _, hw | .string _, _, .string _, hw | .character _, _, .character _, hw =>
    cases hw <;> rfl
  | .function _, _, .function hf, hw =>
    have hagree := (Moved.function hf).agree_eq hw
    cases hw <;> exact congrArg some hagree
  | .list _, .nil, .list _, .nil | .list _, .boolean _, .list _, .boolean _
  | .list _, .integer _, .list _, .integer _ | .list _, .decimal _, .list _, .decimal _
  | .list _, .string _, .list _, .string _ | .list _, .character _, .list _, .character _
  | .list _, .function _, .list _, .function _ | .list _, .object .., .list _, .object .. => rfl
  | .object .., .nil, .object .., .nil | .object .., .boolean _, .object .., .boolean _
  | .object .., .integer _, .object .., .integer _ | .object .., .decimal _, .object .., .decimal _
  | .object .., .string _, .object .., .string _
  | .object .., .character _, .object .., .character _
  | .object .., .function _, .object .., .function _ | .object .., .list _, .object .., .list _ => rfl

theorem equalAllWith_moved
    (hobjects : ∀ a b, N.base ≤ a → N.base ≤ b → objects₁ a b = objects₂ (N.move a) (N.move b))
    (vs ws : List Value) {vs' ws' : List Value} (hvs : List.Forall₂ (Moved N) vs vs')
    (hws : List.Forall₂ (Moved N) ws ws') :
    equalAllWith objects₁ vs ws = equalAllWith objects₂ vs' ws' := by
  match vs, ws, hvs, hws with
  | [], _, .nil, _ => simp only [equalAllWith]
  | _ :: _, [], .cons _ _, .nil => simp only [equalAllWith]
  | v :: vs, w :: ws, .cons hv hvs, .cons hw hws =>
    rw [equalAllWith_cons, equalAllWith_cons, equalWith_moved hobjects v w hv hw,
      equalAllWith_moved hobjects vs ws hvs hws]

end

theorem equalEntries_moved {equal₁ equal₂ : Value → Value → Option Bool} {b b' : Bindings Value}
    (hequal : ∀ v w v' w', Moved N v v' → Moved N w w' → equal₁ v w = equal₂ v' w')
    (hb : Bindings.Aligned (Moved N) b b') {es es' : List (String × Value)}
    (hes : List.Forall₂ (fun e e' => e.1 = e'.1 ∧ Moved N e.2 e'.2) es es') :
    equalEntries equal₁ b es = equalEntries equal₂ b' es' := by
  induction hes with
  | nil => rfl
  | @cons e e' es es' he _ ih =>
    have hfound := hb.matching e.1
    rw [equalEntries, equalEntries, ← he.1]
    generalize b.find? e.1 = o, b'.find? e.1 = o' at hfound
    cases hfound with
    | none => rfl
    | some hw =>
      dsimp only
      rw [hequal _ _ _ _ he.2 hw, ih]

theorem equalMembers_moved (h : Γ.Moved N Δ) (depth : Nat) (a b : ScopeId) (ha : N.base ≤ a)
    (hb : N.base ≤ b) :
    equalMembers Γ depth a b = equalMembers Δ depth (N.move a) (N.move b) := by
  induction depth generalizing a b with
  | zero => rfl
  | succ depth ih =>
    have hsize (c : ScopeId) (hc : N.base ≤ c) : (Γ.own c).size = (Δ.own (N.move c)).size :=
      (h.new c hc).length_eq
    rw [equalMembers, equalMembers, hsize a ha, hsize b hb, equalOrAlike_eq, equalOrAlike_eq,
      equalEntries_moved (fun v w _ _ => equalWith_moved ih v w) (h.new b hb) (h.new a ha)]

/-- The second run finds the same values equal, or finds as well that there is no answer. -/
theorem equal?_moved (h : Γ.Moved N Δ) (hv : Moved N v v') (hw : Moved N w w') :
    v.equal? Γ w = v'.equal? Δ w' := by
  have hle : Γ.size * Γ.size < Δ.size * Δ.size + 1 := by
    have hsize : Γ.size ≤ Δ.size := by
      rw [h.size_eq]
      exact Nat.le_add_right _ _
    exact Nat.lt_succ_of_le (Nat.mul_le_mul hsize hsize)
  rw [equal?, equal?, ← equalMembers_of_size_lt hle]
  exact equalWith_moved (equalMembers_moved h _) v w hv hw

end Equality

end Value

end ObjectLang
