import ObjectLang.Types.Display

/-! The signatures that a program can write down: every parameter and the result have a named
type. -/

namespace ObjectLang

/-- The parameter types and the result type of a definition. -/
structure Signature where
  params : List Prim
  returns : Prim
  deriving DecidableEq, Repr

namespace Signature

/-- The signature as a function type. -/
def toTy (sig : Signature) : Ty := .fn (sig.params.map .prim) (.prim sig.returns)

/-- The signature as messages name it. -/
def display (sig : Signature) : String := sig.toTy.display ∅

end Signature

end ObjectLang
