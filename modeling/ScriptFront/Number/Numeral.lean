/-! Numerals. A decimal numeral stands for the number closest to it, ties going to the even
mantissa; a hexadecimal numeral is summed up digit by digit, rounding after each. -/
namespace ScriptFront.Number

def digitValue (c : Char) : Nat := c.toNat - '0'.toNat

/-- The natural number that ASCII digits spell; `none` for any other character. -/
def natural? (cs : List Char) : Option Nat :=
  cs.foldlM (fun n c => if c.isDigit then some (10 * n + digitValue c) else none) 0

/-- An exponent after its `e`: digits with an optional sign. -/
def exponent? : List Char → Option Int
  | '-' :: cs => (natural? cs).map fun n => -(n : Int)
  | '+' :: cs => (natural? cs).map (↑·)
  | cs => (natural? cs).map (↑·)

def isExponentMark (c : Char) : Bool := c == 'e' || c == 'E'

/-- `whole`, `whole.fraction`, or either with an exponent. -/
def decimal? (cs : List Char) : Option Float :=
  let (mantissa, power) := cs.span (!isExponentMark ·)
  let (whole, fraction) := mantissa.span (· ≠ '.')
  let places := fraction.drop 1
  match natural? (whole ++ places), (if power.isEmpty then some 0 else exponent? (power.drop 1)) with
  | some digits, some exponent =>
    let scale := exponent - places.length
    some (Float.ofScientific digits (scale < 0) scale.natAbs)
  | _, _ => none

def hexValue? (c : Char) : Option Nat :=
  if c.isDigit then some (c.toNat - 48)
  else if 'a' ≤ c ∧ c ≤ 'f' then some (c.toNat - 87)
  else if 'A' ≤ c ∧ c ≤ 'F' then some (c.toNat - 55)
  else none

def hexadecimal? (cs : List Char) : Option Float :=
  cs.foldlM (fun x c => (hexValue? c).map fun d => x * 16 + d.toFloat) 0

end ScriptFront.Number
