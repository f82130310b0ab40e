import ObjectLang.Analysis.Error
import ObjectLang.Snapshot.Numbering
import ObjectLang.Typed.Tree
import ObjectLang.Types.Basic

/-! Types as they can be told to someone who does not have the scopes: object types with their
members where they are met first, and by number afterwards. -/

namespace ObjectLang

/-- A type by itself. -/
inductive TySnapshot where
  | prim (p : Prim)
  | fn (params : List TySnapshot) (returns : TySnapshot)
  | object (number : Nat) (members : List (String × TySnapshot))
  | again (number : Nat)

namespace Ty

mutual

/-- The snapshot of a type, given how an object type is opened. -/
def snapshotWith (openMembers : ScopeId → NumberingM (List (String × TySnapshot))) :
    Ty → NumberingM TySnapshot
  | prim p => return .prim p
  | fn params returns =>
    return .fn (← snapshotAllWith openMembers params) (← snapshotWith openMembers returns)
  | object members =>
    NumberingM.meet members (fun n => return .object n (← openMembers members)) .again

def snapshotAllWith (openMembers : ScopeId → NumberingM (List (String × TySnapshot))) :
    List Ty → NumberingM (List TySnapshot)
  | [] => return []
  | t :: ts => return (← snapshotWith openMembers t) :: (← snapshotAllWith openMembers ts)

end

/-- The members of an object type, opened inside each other at most `depth` times. -/
def openMembers (Γ : TypeScopes) : Nat → ScopeId → NumberingM (List (String × TySnapshot))
  | 0, _ => return []
  | depth + 1, members =>
    (Γ.own members).entries.mapM fun e =>
      return (e.1, ← snapshotWith (openMembers Γ depth) e.2)

/-- The snapshot of a type. Every object type is opened once, so there are enough openings. -/
def snapshot (Γ : TypeScopes) (t : Ty) : NumberingM TySnapshot :=
  snapshotWith (openMembers Γ (Γ.size + 1)) t

end Ty

/-- A typed program with snapshots of its types, under one numbering from its beginning to its
end. -/
def Typed.Program.snapshot (Γ : TypeScopes) (p : Typed.Program Ty) : Typed.Program TySnapshot :=
  NumberingM.fromStart (p.traverse (Ty.snapshot Γ))

/-- The snapshots of the types that an error carries, under one numbering, the actual type first. -/
def AnalysisError.snapshotTypes (Γ : TypeScopes) (e : AnalysisError) :
    Option TySnapshot × Option TySnapshot :=
  NumberingM.fromStart do
    let actual ← e.actual?.mapM (Ty.snapshot Γ)
    let expected ← e.expected?.mapM (Ty.snapshot Γ)
    return (actual, expected)

/-- The own or all visible names of a scope with snapshots of their types. -/
def Bindings.snapshotTypes (Γ : TypeScopes) (b : Bindings Ty) : List (String × TySnapshot) :=
  NumberingM.fromStart (b.entries.mapM fun e => return (e.1, ← Ty.snapshot Γ e.2))

end ObjectLang
