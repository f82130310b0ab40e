import ObjectLang.Decimal.Text
import ObjectLang.Text.Quoted
import ObjectLang.Values.Basic

/-!
The text of a value that shows how it is built. It tells plain values apart: quotes and escapes mark
where a text ends, and of an object only the names are shown, so it always ends.
-/

namespace ObjectLang.Value

/-- A plain value in its box. -/
def plain (text : String) : String := "Primitive(value=" ++ text ++ ")"

/-- An object by its name and the text of its scope. -/
def objectText (name : Option String) (members : String) : String :=
  let name := match name with
    | none => "None"
    | some name => Text.quoted name
  "ObjectValue(name=" ++ name ++ ", members=" ++ members ++ ")"

mutual

/-- The value by its construction. -/
def inspect (Γ : ValueScopes) : Value → String
  | nil => plain "None"
  | boolean b => plain (if b then "True" else "False")
  | integer n => plain (toString n)
  | decimal d => plain ("Decimal('" ++ d.toText ++ "')")
  | string s => plain (Text.quoted s)
  | character c => plain ("Char(value=" ++ Text.quoted c.toString ++ ")")
  | list items => plain ("[" ++ String.intercalate ", " (inspectAll Γ items) ++ "]")
  | function f => "Function(name=" ++ Text.quoted f.name ++ ")"
  | object name members => objectText name (Γ.describe members)

def inspectAll (Γ : ValueScopes) : List Value → List String
  | [] => []
  | v :: vs => inspect Γ v :: inspectAll Γ vs

end

end ObjectLang.Value
