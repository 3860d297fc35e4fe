/- Reading a decimal as the nearest double. -/
import NormalOrder.Decimal.Digits

namespace NormalOrder.Decimal

/-- The double nearest to the number that a run of digits writes; infinite when too large. -/
def ofDigits (ds : List Char) : Float :=
  Float.ofScientific (value ds) false 0

def splitSign : List Char → Bool × List Char
  | '-' :: text => (true, text)
  | '+' :: text => (false, text)
  | text => (false, text)

/-- The exponent at the end of a decimal: nothing, or `e` and a whole number. -/
def exponent? : List Char → Option Int
  | [] => some 0
  | c :: text =>
    let (negative, ds) := splitSign text
    if c.toLower = 'e' && !ds.isEmpty && ds.all Char.isDigit then
      some (if negative then -(value ds : Int) else value ds)
    else none

/-- A decimal without sign: digits, perhaps a point, perhaps an exponent. -/
def magnitude? (text : List Char) : Option Float := do
  let whole := text.takeWhile Char.isDigit
  let afterWhole := text.dropWhile Char.isDigit
  let (fraction, afterFraction) := match afterWhole with
    | '.' :: more => (more.takeWhile Char.isDigit, more.dropWhile Char.isDigit)
    | more => ([], more)
  if whole.isEmpty && fraction.isEmpty then none
  let power := (← exponent? afterFraction) - fraction.length
  some (Float.ofScientific (value (whole ++ fraction)) (power < 0) power.natAbs)

/-- A double written in decimal, or the name of one that is no finite number. -/
def read? (text : List Char) : Option Float := do
  let (negative, unsigned) := splitSign text
  let size ←
    match String.ofList (unsigned.map Char.toLower) with
    | "inf" | "infinity" => some (1.0 / 0.0)
    | "nan" => some (0.0 / 0.0)
    | _ => magnitude? unsigned
  some (if negative then -size else size)

end NormalOrder.Decimal
