import ObjectLang.Snapshot.Numbering
import ObjectLang.Values.Basic

/-! Values as they can be told to someone who does not have the scopes: objects with their members
where they are met first, and by number afterwards. -/

namespace ObjectLang

/-- A value by itself. Functions show their names only. -/
inductive ValueSnapshot where
  | nil
  | boolean (value : Bool)
  | integer (value : Int)
  | decimal (value : Decimal)
  | string (value : String)
  | character (value : Char)
  | list (items : List ValueSnapshot)
  | function (name : String)
  | object (number : Nat) (name : Option String) (members : List (String × ValueSnapshot))
  | again (number : Nat)

namespace Value

mutual

/-- The snapshot of a value, given how an object is opened. -/
def snapshotWith (openMembers : ScopeId → NumberingM (List (String × ValueSnapshot))) :
    Value → NumberingM ValueSnapshot
  | nil => return .nil
  | boolean b => return .boolean b
  | integer n => return .integer n
  | decimal d => return .decimal d
  | string s => return .string s
  | character c => return .character c
  | list items => return .list (← snapshotAllWith openMembers items)
  | function f => return .function f.name
  | object name members =>
    NumberingM.meet members (fun n => return .object n name (← openMembers members)) .again

def snapshotAllWith (openMembers : ScopeId → NumberingM (List (String × ValueSnapshot))) :
    List Value → NumberingM (List ValueSnapshot)
  | [] => return []
  | v :: vs => return (← snapshotWith openMembers v) :: (← snapshotAllWith openMembers vs)

end

/-- The members of an object, opened inside each other at most `depth` times. -/
def openMembers (Γ : ValueScopes) : Nat → ScopeId → NumberingM (List (String × ValueSnapshot))
  | 0, _ => return []
  | depth + 1, members =>
    (Γ.own members).entries.mapM fun e =>
      return (e.1, ← snapshotWith (openMembers Γ depth) e.2)

/-- The snapshot of a value. Every object is opened once, so there are enough openings. -/
def snapshot (Γ : ValueScopes) (v : Value) : NumberingM ValueSnapshot :=
  snapshotWith (openMembers Γ (Γ.size + 1)) v

end Value

/-- The own or all visible names of a scope with snapshots of their values. -/
def Bindings.snapshotValues (Γ : ValueScopes) (b : Bindings Value) :
    List (String × ValueSnapshot) :=
  NumberingM.fromStart (b.entries.mapM fun e => return (e.1, ← Value.snapshot Γ e.2))

end ObjectLang
