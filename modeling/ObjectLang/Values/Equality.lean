import ObjectLang.Decimal.Order
import ObjectLang.Values.Basic

/-!
Equality of values. Values of different kinds differ, decimals are equal only at the same scale,
functions go by name, and objects are equal when their names and their members are. Members are
compared in order up to the first difference; when that never ends, the comparison has no answer.

A list may hold one list many times over, so what two lists share is not compared item by item:
`alike` sees that two values are stored in one place. `equalAllWith_cons` says that this changes no
answer.
-/

namespace ObjectLang.Value

/-- Two values agree, as far as can be told without a look into lists and objects. -/
def agree : Value → Value → Bool
  | nil, nil => true
  | boolean a, boolean b => a = b
  | integer a, integer b => a = b
  | decimal a, decimal b => a.same b
  | string a, string b => a = b
  | character a, character b => a = b
  | list _, list _ => true
  | function f, function g => f.name = g.name
  | object n a, object m b => n = m && a = b
  | _, _ => false

theorem agree_self (v : Value) : agree v v = true := by
  cases v <;> simp [agree, Decimal.same_self]

mutual

/-- Two values agree, and so do the items of lists. -/
def agreeDeep : (x y : Value) → { r : Bool // x = y → r = true }
  | list xs, list ys =>
    ⟨(agreeAll xs ys).1, fun h => (agreeAll xs ys).2 (list.inj h)⟩
  | x, y => ⟨agree x y, fun h => h ▸ agree_self x⟩

def agreeAll : (xs ys : List Value) → { r : Bool // xs = ys → r = true }
  | [], [] => ⟨true, fun _ => rfl⟩
  | x :: xs, y :: ys =>
    ⟨withPtrEq x y (fun _ => (agreeDeep x y).1) (agreeDeep x y).2 && (agreeAll xs ys).1,
      fun h => by
        have h := List.cons.inj h
        simp [withPtrEq, (agreeDeep x y).2 h.1, (agreeAll xs ys).2 h.2]⟩
  | [], _ :: _ => ⟨false, nofun⟩
  | _ :: _, [] => ⟨false, nofun⟩

end

/-- Two values are the same, or equal without a look into objects. -/
def alike (x y : Value) : Bool :=
  withPtrEq x y (fun _ => (agreeDeep x y).1) (agreeDeep x y).2

theorem alike_self (v : Value) : alike v v = true := (agreeDeep v v).2 rfl

mutual

/-- Compares two values, given how two different objects of one name compare. -/
def equalWith (objects : ScopeId → ScopeId → Option Bool) : Value → Value → Option Bool
  | list xs, list ys => if xs.length = ys.length then equalAllWith objects xs ys else some false
  | object n a, object m b =>
    if n = m then (if a = b then some true else objects a b) else some false
  | x, y => some (agree x y)

def equalAllWith (objects : ScopeId → ScopeId → Option Bool) :
    List Value → List Value → Option Bool
  | x :: xs, y :: ys =>
    if alike x y then equalAllWith objects xs ys
    else
      match equalWith objects x y with
      | some true => equalAllWith objects xs ys
      | answer => answer
  | _, _ => some true

end

mutual

theorem equalWith_of_agreeDeep (objects : ScopeId → ScopeId → Option Bool) (x y : Value)
    (h : (agreeDeep x y).1 = true) : equalWith objects x y = some true := by
  cases x with
  | list xs =>
    cases y with
    | list ys =>
      have h : (agreeAll xs ys).1 = true := by simpa [agreeDeep] using h
      simp [equalWith, equalAllWith_of_agreeAll objects xs ys h]
    | _ => simp [agreeDeep, agree] at h
  | _ => cases y <;> simp_all [agreeDeep, agree, equalWith]

theorem equalAllWith_of_agreeAll (objects : ScopeId → ScopeId → Option Bool) (xs ys : List Value)
    (h : (agreeAll xs ys).1 = true) :
    xs.length = ys.length ∧ equalAllWith objects xs ys = some true := by
  match xs, ys with
  | [], [] => exact ⟨rfl, rfl⟩
  | [], _ :: _ | _ :: _, [] => simp [agreeAll] at h
  | x :: xs, y :: ys =>
    have h : (agreeDeep x y).1 = true ∧ (agreeAll xs ys).1 = true := by
      simpa [agreeAll, withPtrEq] using h
    have ⟨hl, he⟩ := equalAllWith_of_agreeAll objects xs ys h.2
    simp [equalAllWith, equalWith_of_agreeDeep objects x y h.1, hl, he]

end

/-- Alike values are equal, however different objects compare. -/
theorem equalWith_of_alike (objects : ScopeId → ScopeId → Option Bool) {x y : Value}
    (h : alike x y = true) : equalWith objects x y = some true :=
  equalWith_of_agreeDeep objects x y h

/-- The items of lists are compared in order up to the first difference. -/
theorem equalAllWith_cons (objects : ScopeId → ScopeId → Option Bool) (x y : Value)
    (xs ys : List Value) :
    equalAllWith objects (x :: xs) (y :: ys) =
      match equalWith objects x y with
      | some true => equalAllWith objects xs ys
      | answer => answer := by
  rw [equalAllWith]
  split
  · next h => rw [equalWith_of_alike objects h]
  · rfl

/-- Compares two values, the shared parts of lists at no cost. -/
def equalOrAlike (objects : ScopeId → ScopeId → Option Bool) (x y : Value) : Option Bool :=
  if alike x y then some true else equalWith objects x y

theorem equalOrAlike_eq (objects : ScopeId → ScopeId → Option Bool) :
    equalOrAlike objects = equalWith objects := by
  funext x y
  unfold equalOrAlike
  split
  · next h => exact (equalWith_of_alike objects h).symm
  · rfl

/-- Compares every entry with the one of the same name in `other`. -/
def equalEntries (equal : Value → Value → Option Bool) (other : Bindings Value) :
    List (String × Value) → Option Bool
  | [] => some true
  | e :: es =>
    match other.find? e.1 with
    | none => some false
    | some v =>
      match equal e.2 v with
      | some true => equalEntries equal other es
      | answer => answer

/-- Compares the members of two objects, if the comparison nests less deeply than `depth`. -/
def equalMembers (Γ : ValueScopes) : Nat → ScopeId → ScopeId → Option Bool
  | 0, _, _ => none
  | depth + 1, a, b =>
    if (Γ.own a).size = (Γ.own b).size then
      equalEntries (equalOrAlike (equalMembers Γ depth)) (Γ.own b) (Γ.own a).entries
    else some false

/-- Compares two values. A comparison that nests more deeply than there are pairs of scopes comes
back to a pair that it is still comparing. -/
def equal? (Γ : ValueScopes) (a b : Value) : Option Bool :=
  equalWith (equalMembers Γ (Γ.size * Γ.size + 1)) a b

end ObjectLang.Value
