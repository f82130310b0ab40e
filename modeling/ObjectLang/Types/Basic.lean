import ObjectLang.Scope.Forest

/-!
Static types. Object types are named by the scope that holds their members, so a member may have the
very type that it belongs to.
-/

namespace ObjectLang

/-- The types with a name of their own: five kinds of values and four tiers that collect kinds. -/
inductive Prim where
  | nil
  | boolean
  | integer
  | decimal
  | string
  | any
  | equatable
  | comparable
  | iterable
  deriving DecidableEq, Repr

namespace Prim

/-- The word for a primitive type in a program. -/
def name : Prim → String
  | nil => "Nil"
  | boolean => "Boolean"
  | integer => "Integer"
  | decimal => "Decimal"
  | string => "String"
  | any => "Any"
  | equatable => "Equatable"
  | comparable => "Comparable"
  | iterable => "Iterable"

def all : List Prim :=
  [nil, boolean, integer, decimal, string, any, equatable, comparable, iterable]

/-- The primitive type that a word names. -/
def ofName? (word : String) : Option Prim := all.find? fun p => p.name = word

theorem mem_all (p : Prim) : p ∈ all := by cases p <;> decide

theorem name_injective {p q : Prim} (h : p.name = q.name) : p = q := by
  revert h
  cases p <;> cases q <;> decide

theorem ofName?_eq_some_iff {word : String} {p : Prim} : ofName? word = some p ↔ p.name = word := by
  constructor
  · intro h
    simpa using List.find?_some h
  · rintro rfl
    cases p <;> decide

/-- The tiers strictly above a primitive type, `any` aside. -/
def above : Prim → List Prim
  | nil => [equatable]
  | boolean | integer | decimal | string => [comparable, equatable]
  | comparable => [equatable]
  | equatable | iterable | any => []

end Prim

/-- A type: primitive, of functions, or of the objects with given members. -/
inductive Ty where
  | prim (p : Prim)
  | fn (params : List Ty) (returns : Ty)
  | object (members : ScopeId)
  deriving Repr

instance : Inhabited Ty := ⟨.prim .any⟩

namespace Ty

mutual

/-- Whether two types are written alike. Parts that are stored in one place are not looked at, since
a type may use a part of itself many times over. -/
def same : (t u : Ty) → { r : Bool // r = true ↔ t = u }
  | prim p, prim q => ⟨p = q, by simp⟩
  | fn ps r, fn qs s =>
    ⟨(sameAll ps qs).1 && withPtrEq r s (fun _ => (same r s).1) (same r s).2.2, by
      simp [withPtrEq, (sameAll ps qs).2, (same r s).2]⟩
  | object a, object b => ⟨a = b, by simp⟩
  | prim _, fn .. | prim _, object _ | fn .., prim _ | fn .., object _ | object _, prim _
  | object _, fn .. => ⟨false, by simp⟩

def sameAll : (ts us : List Ty) → { r : Bool // r = true ↔ ts = us }
  | [], [] => ⟨true, by simp⟩
  | t :: ts, u :: us =>
    ⟨withPtrEq t u (fun _ => (same t u).1) (same t u).2.2 && (sameAll ts us).1, by
      simp [withPtrEq, (same t u).2, (sameAll ts us).2]⟩
  | [], _ :: _ | _ :: _, [] => ⟨false, by simp⟩

end

instance : DecidableEq Ty := fun t u =>
  decidable_of_iff (withPtrEq t u (fun _ => (same t u).1) (same t u).2.2 = true) (same t u).2

end Ty

/-- The members of all object types made so far, and the types of the names in scope. -/
abbrev TypeScopes := Forest Ty

end ObjectLang
