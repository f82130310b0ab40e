import ObjectLang.Scope.Forest
import ObjectLang.Scope.Names
import ObjectLang.Tree.Basic

/-!
Values of a running program. Objects and closures refer to scopes by number, so values that share an
object share its members, and an object may hold itself.
-/

namespace ObjectLang

/-- The functions that every program finds in its outermost scope, the last six only with
fixtures. -/
inductive Native where
  | debug
  | print
  | log
  | list
  | range
  | function
  | functionAny
  | functionString
  | method
  | methodAny
  | methodString
  deriving DecidableEq, Repr

def Native.name : Native → String
  | debug => "debug"
  | print => "print"
  | log => "log"
  | list => "list"
  | range => "range"
  | function => "function"
  | functionAny => "functionAny"
  | functionString => "functionString"
  | method => "method"
  | methodAny => "methodAny"
  | methodString => "methodString"

/-- A definition together with the scope that it was made in. A method takes the object that it is
called on before its parameters. -/
structure Closure where
  name : String
  params : List String
  params_nodup : params.Nodup
  body : List Stmt
  scope : ScopeId
  isMethod : Bool

/-- The closure of a definition, or the parameter that it names twice. -/
def Closure.ofDecl (scope : ScopeId) (isMethod : Bool) : DefDecl → Except String Closure
  | .mk name params _ _ body =>
    match h : firstRepeat? [] params with
    | none => .ok ⟨name, params, nodup_of_firstRepeat?_eq_none h, body, scope, isMethod⟩
    | some param => .error param

/-- What can be called. A function from outside the program may be known by its name alone; calling
it does nothing. -/
inductive Callable where
  | native (f : Native)
  | closure (c : Closure)
  | named (name : String)

def Callable.name : Callable → String
  | native f => f.name
  | closure c => c.name
  | named name => name

/-- A value. An object is its name and the scope of its members. -/
inductive Value where
  | nil
  | boolean (value : Bool)
  | integer (value : Int)
  | decimal (value : Decimal)
  | string (value : String)
  | character (value : Char)
  | list (items : List Value)
  | function (f : Callable)
  | object (name : Option String) (members : ScopeId)

instance : Inhabited Value := ⟨.nil⟩

/-- The members of all objects made so far, and the values of the names in scope. -/
abbrev ValueScopes := Forest Value

mutual

/-- The value of a literal. -/
def Literal.toValue : Literal → Value
  | .nil => .nil
  | .boolean b => .boolean b
  | .integer n => .integer n
  | .decimal d => .decimal d
  | .string s => .string s
  | .character c => .character c
  | .function name => .function (.named name)
  | .list items => .list (Literal.toValues items)

def Literal.toValues : List Literal → List Value
  | [] => []
  | v :: vs => v.toValue :: Literal.toValues vs

end

/-- The kinds of values. -/
inductive ValueKind where
  | nil
  | boolean
  | integer
  | decimal
  | string
  | character
  | list
  | function
  | object
  deriving DecidableEq, Repr

/-- The name of a kind of values in messages. -/
def ValueKind.name : ValueKind → String
  | nil => "Nil"
  | boolean => "Boolean"
  | integer => "Integer"
  | decimal => "Decimal"
  | string => "String"
  | character => "Character"
  | list => "List"
  | function => "Function"
  | object => "Object"

def Value.kind : Value → ValueKind
  | nil => .nil
  | boolean _ => .boolean
  | integer _ => .integer
  | decimal _ => .decimal
  | string _ => .string
  | character _ => .character
  | list _ => .list
  | function _ => .function
  | object _ _ => .object

end ObjectLang
