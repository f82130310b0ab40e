import ObjectLang.Types.Signature

/-! What the passes report about their progress. -/

namespace ObjectLang

/-- A step of a pass that is worth a line in the log. -/
inductive Event where
  | builtTypes (fixtures : Bool)
  | builtValues (fixtures : Bool)
  | analyzingFunction (name : String) (signature : Signature)
  | analyzingObject (name : Option String)
  | call (name : String) (arity : Nat)
  | returned (name : String)
  deriving DecidableEq, Repr

/-- The part of the program that reports an event. -/
inductive Origin where
  | environment
  | analysis
  | evaluation
  deriving DecidableEq, Repr

namespace Event

def origin : Event → Origin
  | builtTypes _ | builtValues _ => .environment
  | analyzingFunction .. | analyzingObject _ => .analysis
  | call .. | returned _ => .evaluation

/-- How a log line shows whether the fixtures are there. -/
def flag (fixtures : Bool) : String :=
  "(fixtures=" ++ (if fixtures then "True" else "False") ++ ")"

def message : Event → String
  | builtTypes fixtures => "built type scope " ++ flag fixtures
  | builtValues fixtures => "built value scope " ++ flag fixtures
  | analyzingFunction name signature => "analyzing function " ++ name ++ signature.display
  | analyzingObject none | analyzingObject (some "") => "analyzing object <anonymous>"
  | analyzingObject (some name) => "analyzing object " ++ name
  | call name arity => "call " ++ name ++ "/" ++ toString arity
  | returned name => "return from " ++ name

end Event

end ObjectLang
