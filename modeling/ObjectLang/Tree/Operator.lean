/-! The operators of binary expressions. -/

namespace ObjectLang

/-- What can be done with two operands. -/
inductive Operator where
  | and
  | or
  | add
  | sub
  | mul
  | div
  | eq
  | ne
  | lt
  | le
  | gt
  | ge
  deriving DecidableEq, Repr

namespace Operator

/-- The symbol or word that stands between the operands. -/
def symbol : Operator → String
  | and => "AND"
  | or => "OR"
  | add => "+"
  | sub => "-"
  | mul => "*"
  | div => "/"
  | eq => "=="
  | ne => "!="
  | lt => "<"
  | le => "<="
  | gt => ">"
  | ge => ">="

def all : List Operator := [and, or, add, sub, mul, div, eq, ne, lt, le, gt, ge]

/-- The operator that a symbol stands for. -/
def ofSymbol? (symbol : String) : Option Operator := all.find? fun op => op.symbol = symbol

theorem ofSymbol?_eq_some_iff {s : String} {op : Operator} :
    ofSymbol? s = some op ↔ op.symbol = s := by
  constructor
  · intro h
    simpa using List.find?_some h
  · rintro rfl
    cases op <;> decide

end Operator

end ObjectLang
