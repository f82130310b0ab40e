import ObjectLang.Types.Basic
import Std.Data.TreeSet

/-!
Equality of types. Object types are equal when they have the same member names and equal member
types; since members can lead back to the object type they started from, equality is decided
coinductively: two object types that are already being compared are taken to be equal. A
comparison that follows these assumptions through to the end without meeting a difference answers
yes.
-/

namespace ObjectLang

namespace Bindings

variable {α : Type}

/-- The values of two maps at each name, when they have the same names. -/
def pairUp? (a b : Bindings α) : Option (List (α × α)) :=
  if a.size = b.size then a.entries.mapM fun e => (b.find? e.1).map fun v => (e.2, v) else none

theorem pairUp?_eq_nil {a b : Bindings α} {ps : List (α × α)} (h : pairUp? a b = some ps)
    (he : a.entries = [] ∨ b.entries = []) : ps = [] := by
  unfold pairUp? at h
  split at h
  · next hs =>
    have : a.entries = [] := by
      rcases he with he | he
      · exact he
      · simpa [size, he] using hs
    simpa [this] using h.symm
  · simp at h

end Bindings

namespace Ty

mutual

/-- How many types a type is written with. -/
def weight : Ty → Nat
  | prim _ => 1
  | fn params returns => 1 + weightSum params + weight returns
  | object _ => 1

def weightSum : List Ty → Nat
  | [] => 0
  | t :: ts => weight t + weightSum ts

end

/-- The weight of the left sides of the comparisons still to be made. -/
def pendingWeight (todo : List (Ty × Ty)) : Nat := weightSum (todo.map Prod.fst)

theorem weight_pos (t : Ty) : 0 < weight t := by
  cases t <;> simp only [weight] <;> omega

theorem weightSum_append (ts us : List Ty) :
    weightSum (ts ++ us) = weightSum ts + weightSum us := by
  induction ts with
  | nil => simp [weightSum]
  | cons t ts ih => simp only [List.cons_append, weightSum, ih]; omega

theorem pendingWeight_cons (p : Ty × Ty) (todo : List (Ty × Ty)) :
    pendingWeight (p :: todo) = weight p.1 + pendingWeight todo := by
  simp [pendingWeight, weightSum]

theorem pendingWeight_append (ps todo : List (Ty × Ty)) :
    pendingWeight (ps ++ todo) = pendingWeight ps + pendingWeight todo := by
  simp [pendingWeight, weightSum_append]

theorem pendingWeight_zip_le (ts us : List Ty) : pendingWeight (ts.zip us) ≤ weightSum ts := by
  induction ts generalizing us with
  | nil => simp [pendingWeight, weightSum]
  | cons t ts ih =>
    cases us with
    | nil => simp [pendingWeight, weightSum]
    | cons u us =>
      have := ih us
      simp only [List.zip_cons_cons, pendingWeight_cons, weightSum]
      omega

/-- Pairs of scopes, ordered by the first and then by the second. -/
abbrev ScopePairs := Std.TreeSet (ScopeId × ScopeId) (@lexOrd ScopeId ScopeId _ _).compare

/-- All pairs of numbers below a bound. -/
def pairsBelow (n : Nat) : List (ScopeId × ScopeId) :=
  (List.range n).flatMap fun i => (List.range n).map fun j => (i, j)

theorem mem_pairsBelow {n : Nat} {p : ScopeId × ScopeId} :
    p ∈ pairsBelow n ↔ p.1 < n ∧ p.2 < n := by
  simp only [pairsBelow, List.mem_flatMap, List.mem_map, List.mem_range]
  constructor
  · rintro ⟨i, hi, j, hj, rfl⟩
    exact ⟨hi, hj⟩
  · intro h
    exact ⟨p.1, h.1, p.2, h.2, rfl⟩

/-- How many pairs of object types have not been assumed equal. -/
def unassumed (n : Nat) (assumed : ScopePairs) : Nat :=
  (pairsBelow n).countP fun p => p ∉ assumed

theorem countP_lt_of_mem {β : Type} {p q : β → Bool} {l : List β} (h : ∀ x, q x = true → p x = true)
    {x : β} (hx : x ∈ l) (hp : p x = true) (hq : q x = false) : l.countP q < l.countP p := by
  induction l with
  | nil => simp at hx
  | cons y l ih =>
    have hle : l.countP q ≤ l.countP p := List.countP_mono_left fun z _ => h z
    rcases List.mem_cons.1 hx with rfl | hx
    · simp only [List.countP_cons, hp, hq, if_true, Bool.false_eq_true, if_false]
      omega
    · have := ih hx
      cases hqy : q y with
      | true =>
        simp only [List.countP_cons, hqy, h y hqy, if_true]
        omega
      | false =>
        simp only [List.countP_cons, hqy, Bool.false_eq_true, if_false]
        omega

theorem unassumed_insert_le (n : Nat) (p : ScopeId × ScopeId) (assumed : ScopePairs) :
    unassumed n (assumed.insert p) ≤ unassumed n assumed :=
  List.countP_mono_left fun x _ hx => by simp_all

theorem unassumed_insert_lt {n : Nat} {p : ScopeId × ScopeId} {assumed : ScopePairs}
    (hn : p.1 < n ∧ p.2 < n) (hp : p ∉ assumed) :
    unassumed n (assumed.insert p) < unassumed n assumed :=
  countP_lt_of_mem (fun x hx => by simp_all) (mem_pairsBelow.2 hn)
    (by simpa using hp) (by simp)

/-- Makes the comparisons in `todo`, taking the pairs in `assumed` for equal. Every pair of object
types is opened at most once, which bounds the work, and two types that are written alike need not
be opened at all. -/
def equivAll (Γ : TypeScopes) (todo : List (Ty × Ty)) (assumed : ScopePairs) : Bool :=
  match todo with
  | [] => true
  | (t, u) :: rest =>
    if t = u then equivAll Γ rest assumed
    else
      match t, u with
      | fn ps r, fn qs s =>
        ps.length = qs.length && equivAll Γ (ps.zip qs ++ (r, s) :: rest) assumed
      | object a, object b =>
        if (a, b) ∈ assumed then equivAll Γ rest assumed
        else
          match _opened : (Γ.own a).pairUp? (Γ.own b) with
          | some members => equivAll Γ (members ++ rest) (assumed.insert (a, b))
          | none => false
      | _, _ => false
termination_by (unassumed Γ.size assumed, pendingWeight todo)
decreasing_by
  · have := weight_pos t
    exact Prod.Lex.right _ (by simp only [pendingWeight_cons]; omega)
  · have := pendingWeight_zip_le ps qs
    exact Prod.Lex.right _ (by simp only [pendingWeight_append, pendingWeight_cons, weight]; omega)
  · exact Prod.Lex.right _ (by simp [pendingWeight_cons, weight])
  · next hn =>
    by_cases hr : a < Γ.size ∧ b < Γ.size
    · exact Prod.Lex.left _ _ (unassumed_insert_lt hr hn)
    · have he : (Γ.own a).entries = [] ∨ (Γ.own b).entries = [] := by
        have none_of_ge : ∀ c, ¬ c < Γ.size → (Γ.own c).entries = [] := fun c hc => by
          have : Γ.frames[c]? = none := Array.getElem?_eq_none (Nat.le_of_not_lt hc)
          simp [Forest.own, this, EmptyCollection.emptyCollection, Bindings.empty]
        by_cases ha : a < Γ.size
        · exact Or.inr (none_of_ge b fun hb => hr ⟨ha, hb⟩)
        · exact Or.inl (none_of_ge a ha)
      have hm : members = [] := Bindings.pairUp?_eq_nil _opened he
      rcases Nat.lt_or_eq_of_le (unassumed_insert_le Γ.size (a, b) assumed) with hlt | heq
      · exact Prod.Lex.left _ _ hlt
      · rw [heq]
        exact Prod.Lex.right _ (by simp [hm, pendingWeight_cons, weight])

/-- Two types are equal: no sequence of members, parameters and results tells them apart. -/
def equiv (Γ : TypeScopes) (a b : Ty) : Bool := equivAll Γ [(a, b)] ∅

mutual

/-- Equality taken component by component. Every pair of object types is compared from scratch. -/
def equal (Γ : TypeScopes) (t u : Ty) : Bool :=
  if t = u then true
  else
    match t, u with
    | fn ps r, fn qs s => equalAll Γ ps qs && equal Γ r s
    | object a, object b => equiv Γ (object a) (object b)
    | _, _ => false

def equalAll (Γ : TypeScopes) : List Ty → List Ty → Bool
  | [], [] => true
  | t :: ts, u :: us => equal Γ t u && equalAll Γ ts us
  | _, _ => false

end

/-- Adds a type to a list unless an equal one is there. -/
def addNew (Γ : TypeScopes) (seen : List Ty) (t : Ty) : List Ty :=
  if seen.any fun u => equal Γ u t then seen else t :: seen

/-- How many types there are up to equality. -/
def countDistinct (Γ : TypeScopes) (ts : List Ty) : Nat := (ts.foldl (addNew Γ) []).length

end Ty

end ObjectLang
