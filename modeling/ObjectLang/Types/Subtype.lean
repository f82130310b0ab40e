import ObjectLang.Types.Equality

/-!
The subtype relation. Everything is below `Any`, primitive types are ordered by the tiers above
them, and function and object types have nothing else above them than the types equal to them.
-/

namespace ObjectLang.Ty

/-- A value of type `t` may stand where one of type `expected` is asked for. -/
def isSubtype (Γ : TypeScopes) (t expected : Ty) : Bool :=
  equiv Γ t expected ||
    match t, expected with
    | _, prim .any => true
    | prim p, prim q => p.above.contains q
    | _, _ => false

end ObjectLang.Ty
