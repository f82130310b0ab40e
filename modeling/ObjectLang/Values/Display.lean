import ObjectLang.Decimal.Text
import ObjectLang.Values.Basic

/-!
The text of a value as programs print it. Objects are shown with their members, so the text of an
object that holds itself, directly or through others, has no end; such a value has no text here.
-/

namespace ObjectLang.Value

mutual

/-- The text of a value, given the texts of the objects in it. -/
def displayWith (showObject : Option String → ScopeId → Option String) : Value → Option String
  | nil => some "NIL"
  | boolean b => some (if b then "TRUE" else "FALSE")
  | integer n => some (toString n)
  | decimal d => some d.toText
  | string s => some s
  | character c => some c.toString
  | list items => do
    let texts ← displayAllWith showObject items
    return "[" ++ String.intercalate ", " texts ++ "]"
  | function f => some ("DEF " ++ f.name ++ "(?) DO ? END")
  | object name members => showObject name members

def displayAllWith (showObject : Option String → ScopeId → Option String) :
    List Value → Option (List String)
  | [] => some []
  | v :: vs => do
    let text ← displayWith showObject v
    let texts ← displayAllWith showObject vs
    return text :: texts

end

/-- An object's name, and its members between braces. -/
def frameObject (name : Option String) (members : List String) : String :=
  let head := match name with
    | none => "Object"
    | some name => "Object(" ++ name ++ ")"
  if members.isEmpty then head ++ " \x7b \x7d"
  else head ++ " \x7b " ++ String.intercalate ", " members ++ " \x7d"

/-- The text of an object, if objects nest in it less deeply than `depth`. -/
def displayObject (Γ : ValueScopes) : Nat → Option String → ScopeId → Option String
  | 0, _, _ => none
  | depth + 1, name, members => do
    let texts ← (Γ.own members).entries.mapM fun e => do
      let text ← displayWith (displayObject Γ depth) e.2
      return e.1 ++ " = `" ++ text ++ "`"
    return frameObject name texts

/-- The text of a value. Objects that nest more deeply than there are scopes hold themselves. -/
def display? (Γ : ValueScopes) (v : Value) : Option String :=
  displayWith (displayObject Γ (Γ.size + 1)) v

end ObjectLang.Value
