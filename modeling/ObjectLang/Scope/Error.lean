/-! Misuse of a scope. -/

namespace ObjectLang

/-- Why a binding could not be made or changed. -/
inductive ScopeError where
  | alreadyDefined (name : String)
  | notDefined (name : String)
  deriving DecidableEq, Repr

/-- The text shown to users. -/
def ScopeError.message : ScopeError → String
  | .alreadyDefined name => "'" ++ name ++ "' is already defined in this scope"
  | .notDefined name => "'" ++ name ++ "' is not defined"

end ObjectLang
