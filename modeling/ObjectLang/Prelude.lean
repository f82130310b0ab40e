import ObjectLang.Types.Signature
import ObjectLang.Values.Basic

/-!
The outermost scopes. Analysis finds the types of the native functions there, and evaluation the
functions themselves; only `list`, which takes any number of arguments, has no type. Fixtures are a
second set of names, with a value of every tier and an object to call methods on.
-/

namespace ObjectLang

/-- The type of a native function, and for a method the type without its receiver. -/
def Native.signature? : Native → Option Signature
  | debug | print => some ⟨[.any], .nil⟩
  | log | functionAny | methodAny => some ⟨[.any], .any⟩
  | range => some ⟨[.integer, .integer], .iterable⟩
  | function | method => some ⟨[], .nil⟩
  | functionString | methodString => some ⟨[.string], .string⟩
  | list => none

namespace Prelude

/-- The scope that all programs share. -/
def root : ScopeId := 0

/-- The members of the object among the fixtures. -/
def fixtureMembers : ScopeId := 1

/-- The entry of a native function among types, if it has one. -/
def typeEntry? (f : Native) : Option (String × Ty) :=
  f.signature?.map fun signature => (f.name, signature.toTy)

/-- The entry of a native function among values. -/
def valueEntry (f : Native) : String × Value := (f.name, .function (.native f))

def natives : List Native := [.debug, .print, .log, .list, .range]

def fixtureFunctions : List Native := [.function, .functionAny, .functionString]

def fixtureMethods : List Native := [.method, .methodAny, .methodString]

/-- The types of the fixtures. -/
def fixtureTypes : List (String × Ty) :=
  ("variable", .prim .string) :: fixtureFunctions.filterMap typeEntry? ++
    [("object", .object fixtureMembers), ("any", .prim .any), ("equatable", .prim .equatable),
      ("comparable", .prim .comparable), ("iterable", .prim .iterable)]

/-- The values of the fixtures. -/
def fixtureValues : List (String × Value) :=
  ("variable", .string "variable") :: fixtureFunctions.map valueEntry ++
    [("object", .object (some "Object") fixtureMembers), ("any", .nil),
      ("equatable", .boolean true), ("comparable", .integer 1), ("iterable", .list [])]

/-- The outermost scope of types. -/
def types (fixtures : Bool) : TypeScopes :=
  let standard := natives.filterMap typeEntry?
  if fixtures then
    ((∅ : TypeScopes).addRoot (Bindings.ofList (standard ++ fixtureTypes))).addRoot
      (Bindings.ofList (("property", .prim .string) :: fixtureMethods.filterMap typeEntry?))
  else (∅ : TypeScopes).addRoot (Bindings.ofList standard)

/-- The outermost scope of values. -/
def values (fixtures : Bool) : ValueScopes :=
  let standard := natives.map valueEntry
  if fixtures then
    ((∅ : ValueScopes).addRoot (Bindings.ofList (standard ++ fixtureValues))).addRoot
      (Bindings.ofList (("property", .string "property") :: fixtureMethods.map valueEntry))
  else (∅ : ValueScopes).addRoot (Bindings.ofList standard)

end Prelude

end ObjectLang
