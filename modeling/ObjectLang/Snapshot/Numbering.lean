import ObjectLang.Scope.Forest

/-!
Numbers for objects that are met on a walk. Which scope an object lives in is an accident of the
run; the order in which a walk first meets the objects is not.
-/

namespace ObjectLang

/-- A walk that keeps the objects that it has met, in the order in which it met them. -/
abbrev NumberingM := StateM (List ScopeId)

namespace NumberingM

/-- Gives an object the number of its first appearance. What is said about it there may lead to
other objects, which come after it. -/
def meet {σ : Type} (members : ScopeId) (first : Nat → NumberingM σ) (again : Nat → σ) :
    NumberingM σ := do
  let met ← get
  match met.idxOf? members with
  | some n => return again n
  | none =>
    set (met ++ [members])
    first met.length

/-- What a walk from the start finds. -/
def fromStart {σ : Type} (walk : NumberingM σ) : σ := (walk.run []).1

end NumberingM

end ObjectLang
