import ObjectLang.Types.Basic

/-! The texts of a type: the name that messages use and the form that shows how it is built. -/

namespace ObjectLang.Ty

mutual

/-- The type as messages name it. An object type shows the names of its members only. -/
def display (Γ : TypeScopes) : Ty → String
  | prim p => p.name
  | fn params returns =>
    "(" ++ String.intercalate ", " (displayAll Γ params) ++ ") -> " ++ display Γ returns
  | object members => "Object\x7b" ++ String.intercalate ", " (Γ.names members) ++ "\x7d"

def displayAll (Γ : TypeScopes) : List Ty → List String
  | [] => []
  | t :: ts => display Γ t :: displayAll Γ ts

end

/-- A parenthesised list, in which a single item is followed by a comma. -/
def tuple : List String → String
  | [item] => "(" ++ item ++ ",)"
  | items => "(" ++ String.intercalate ", " items ++ ")"

mutual

/-- The type by its construction. -/
def inspect (Γ : TypeScopes) : Ty → String
  | prim p => "Primitive(name='" ++ p.name ++ "')"
  | fn params returns =>
    "FunctionType(params=" ++ tuple (inspectAll Γ params) ++ ", returns=" ++ inspect Γ returns
      ++ ")"
  | object members => "ObjectType(" ++ String.intercalate ", " (Γ.names members) ++ ")"

def inspectAll (Γ : TypeScopes) : List Ty → List String
  | [] => []
  | t :: ts => inspect Γ t :: inspectAll Γ ts

end

end ObjectLang.Ty
