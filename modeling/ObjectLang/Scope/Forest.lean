import ObjectLang.Scope.Bindings
import ObjectLang.Scope.Error

/-!
A forest of nested scopes. Every scope has its own bindings and knows the scopes around it,
nearest first; looking a name up walks outwards, defining a name never leaves the scope, and
assigning one writes to the nearest scope that owns it. Scopes are never removed, so a number once
given to a scope names it for good.
-/

namespace ObjectLang

/-- The number of a scope in its forest. -/
abbrev ScopeId := Nat

/-- One scope: the scopes that enclose it, nearest first, and the names it binds itself. -/
structure Frame (α : Type) where
  outer : List ScopeId
  own : Bindings α

/-- All scopes made so far, each at its number. -/
structure Forest (α : Type) where
  frames : Array (Frame α)

namespace Forest

variable {α : Type}

instance : EmptyCollection (Forest α) := ⟨⟨#[]⟩⟩

/-- How many scopes there are, which is the number that the next scope gets. -/
def size (f : Forest α) : Nat := f.frames.size

/-- The scopes around a scope, nearest first. -/
def outer (f : Forest α) (s : ScopeId) : List ScopeId :=
  match f.frames[s]? with
  | some frame => frame.outer
  | none => []

/-- The bindings of a scope itself. A number that no scope has yet binds nothing. -/
def own (f : Forest α) (s : ScopeId) : Bindings α :=
  match f.frames[s]? with
  | some frame => frame.own
  | none => ∅

/-- A scope and the scopes around it, innermost first. -/
def chain (f : Forest α) (s : ScopeId) : List ScopeId := s :: f.outer s

def parent? (f : Forest α) (s : ScopeId) : Option ScopeId := (f.outer s).head?

/-- Adds a scope that no other scope encloses. -/
def addRoot (f : Forest α) (own : Bindings α) : Forest α := ⟨f.frames.push ⟨[], own⟩⟩

/-- Adds a scope directly inside another. -/
def addChild (f : Forest α) (parent : ScopeId) (own : Bindings α) : Forest α :=
  let around := f.chain parent
  ⟨f.frames.push ⟨around, own⟩⟩

/-- Binds a name in one scope, whether or not the scope has it. -/
def insert (f : Forest α) (s : ScopeId) (name : String) (value : α) : Forest α :=
  ⟨f.frames.modify s fun frame => { frame with own := frame.own.insert name value }⟩

/-- The names that a scope binds itself, oldest first. -/
def names (f : Forest α) (s : ScopeId) : List String := (f.own s).names

/-- The value that a scope itself binds to a name. -/
def lookupOwn (f : Forest α) (s : ScopeId) (name : String) : Option α := (f.own s).find? name

/-- The value at the nearest binding of a name. -/
def lookup (f : Forest α) (s : ScopeId) (name : String) : Option α :=
  (f.chain s).findSome? fun t => f.lookupOwn t name

def containsOwn (f : Forest α) (s : ScopeId) (name : String) : Bool := (f.own s).contains name

/-- Some scope on the way out binds the name. -/
def contains (f : Forest α) (s : ScopeId) (name : String) : Bool :=
  (f.chain s).any fun t => f.containsOwn t name

/-- The nearest scope that binds a name. -/
def owner? (f : Forest α) (s : ScopeId) (name : String) : Option ScopeId :=
  (f.chain s).find? fun t => f.containsOwn t name

/-- Binds a name that the scope does not have yet. -/
def define (f : Forest α) (s : ScopeId) (name : String) (value : α) :
    Except ScopeError (Forest α) :=
  if f.containsOwn s name then .error (.alreadyDefined name) else .ok (f.insert s name value)

/-- Rebinds a name in the nearest scope that has it. -/
def assign (f : Forest α) (s : ScopeId) (name : String) (value : α) :
    Except ScopeError (Forest α) :=
  match f.owner? s name with
  | some t => .ok (f.insert t name value)
  | none => .error (.notDefined name)

/-- All bindings that a scope sees. A name that hides another keeps the place of the outermost. -/
def collect (f : Forest α) (s : ScopeId) : Bindings α :=
  (f.chain s).foldr (fun t seen => seen.merge (f.own t)) ∅

/-- The bindings that a scope sees, or only its own. -/
def visible (f : Forest α) (s : ScopeId) (ownOnly : Bool) : Bindings α :=
  if ownOnly then f.own s else f.collect s

/-- A scope as text: the names it binds itself. -/
def describe (f : Forest α) (s : ScopeId) : String :=
  "Scope(" ++ String.intercalate ", " (f.names s) ++ ")"

end Forest

end ObjectLang
