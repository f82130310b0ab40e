import ObjectLang.Decimal.Basic

/-!
The text of a decimal. Writing shows the coefficient digit by digit and chooses between plain and
scientific notation, so that reading gives back sign, coefficient and exponent.
-/

namespace ObjectLang.Decimal

/-- The decimal digits of a number, most significant first. -/
def digits (n : Nat) : List Char := Nat.toDigits 10 n

/-- The number that a list of digits stands for. -/
def ofDigits (cs : List Char) : Nat := cs.foldl (fun n c => 10 * n + (c.toNat - '0'.toNat)) 0

/-- Small exponents need no power of ten: the last digit is at most a unit and the first one is no
more than six places behind the point. -/
def isPlain (exponent adjusted : Int) : Bool := exponent ≤ 0 && -6 ≤ adjusted

/-- Digits with a point before the last `places` of them, and at least one digit before the point.
-/
def writePlain (places : Nat) (ds : List Char) : List Char :=
  let padded := List.replicate (places + 1 - ds.length) '0' ++ ds
  let whole := padded.length - places
  if places = 0 then padded else padded.take whole ++ '.' :: padded.drop whole

/-- An exponent always has its sign. -/
def writeExponent (e : Int) : List Char :=
  (if e < 0 then '-' else '+') :: digits e.natAbs

/-- One digit before the point, the others behind it, and the power of ten. -/
def writeScientific (adjusted : Int) : List Char → List Char
  | [] => []
  | [d] => d :: 'E' :: writeExponent adjusted
  | d :: rest => d :: '.' :: rest ++ 'E' :: writeExponent adjusted

/-- The text without its sign. -/
def writeUnsigned (coefficient : Nat) (exponent : Int) : List Char :=
  let ds := digits coefficient
  let adjusted := exponent + ds.length - 1
  if isPlain exponent adjusted then writePlain exponent.natAbs ds else writeScientific adjusted ds

/-- The text of a decimal, character by character. -/
def write (d : Decimal) : List Char :=
  let body := writeUnsigned d.coefficient d.exponent
  if d.negative then '-' :: body else body

def toText (d : Decimal) : String := String.ofList d.write

/-- A non-empty run of digits and what follows it. -/
def readDigits? (cs : List Char) : Option (List Char × List Char) :=
  let ds := cs.takeWhile Char.isDigit
  if ds.isEmpty then none else some (ds, cs.dropWhile Char.isDigit)

/-- A point and its digits, or nothing. -/
def readFraction? : List Char → Option (List Char × List Char)
  | '.' :: rest => readDigits? rest
  | rest => some ([], rest)

/-- The digits of an exponent, up to the end of the text. -/
def readMagnitude? (cs : List Char) : Option Nat :=
  match readDigits? cs with
  | some (ds, []) => some (ofDigits ds)
  | _ => none

/-- An exponent with its letter, or nothing, up to the end of the text. -/
def readExponent? : List Char → Option Int
  | [] => some 0
  | 'E' :: '-' :: rest => (readMagnitude? rest).map fun n => -(n : Int)
  | 'E' :: '+' :: rest => (readMagnitude? rest).map fun n => (n : Int)
  | 'E' :: rest => (readMagnitude? rest).map fun n => (n : Int)
  | _ => none

/-- A decimal without its sign: digits, perhaps a fraction, perhaps an exponent. -/
def readUnsigned? (negative : Bool) (cs : List Char) : Option Decimal := do
  let (whole, rest) ← readDigits? cs
  let (fraction, rest) ← readFraction? rest
  let e ← readExponent? rest
  pure ⟨negative, ofDigits (whole ++ fraction), e - fraction.length⟩

/-- Reads `-?digits(.digits)?(E[+-]?digits)?` and keeps every digit. -/
def read? : List Char → Option Decimal
  | '-' :: rest => readUnsigned? true rest
  | cs => readUnsigned? false cs

def ofText? (s : String) : Option Decimal := read? s.toList

end ObjectLang.Decimal
