/- Writing a double in decimal. -/
import NormalOrder.Decimal.Digits
import NormalOrder.Decimal.Shortest

namespace NormalOrder.Decimal

/-- The decisions of a decimal format. -/
structure Layout where
  /-- The least power of ten of a first digit that is written without an exponent. -/
  leastPlain : Int
  /-- The greatest power of ten of a first digit that is written without an exponent. -/
  greatestPlain : Int
  /-- What marks a whole number written without an exponent. -/
  wholeMark : List Char
  /-- What stands before an exponent. -/
  exponentMark : List Char
  infinite : List Char
  notNumber : List Char

/-- The sign and the digits of an exponent; positive ones have no sign. -/
def signed : Int → List Char
  | .ofNat n => digits n
  | .negSucc n => '-' :: digits (n + 1)

/-- The number `ds * 10 ^ k` without an exponent. -/
def Layout.plain (layout : Layout) (ds : List Char) (k : Int) : List Char :=
  if 0 ≤ k then ds ++ List.replicate k.toNat '0' ++ layout.wholeMark
  else
    let places := (-k).toNat
    if places < ds.length then
      ds.take (ds.length - places) ++ '.' :: ds.drop (ds.length - places)
    else '0' :: '.' :: List.replicate (places - ds.length) '0' ++ ds

/-- The number whose first digit counts `10 ^ e`, with one digit before the point. -/
def Layout.scientific (layout : Layout) (ds : List Char) (e : Int) : List Char :=
  let fraction := if ds.length = 1 then [] else '.' :: ds.drop 1
  ds.take 1 ++ fraction ++ layout.exponentMark ++ signed e

def Layout.positive (layout : Layout) (n : Nat) (k : Int) : List Char :=
  let ds := digits n
  let e := k + ds.length - 1
  if layout.leastPlain ≤ e && e ≤ layout.greatestPlain then layout.plain ds k
  else layout.scientific ds e

/-- A double from its sign, its biased exponent and its fraction, all as its bits hold them. -/
def Layout.writeParts (layout : Layout) (negative : Bool) (exponent fraction : Nat) : List Char :=
  let sign := if negative then ['-'] else []
  if exponent = 2047 then
    if fraction = 0 then sign ++ layout.infinite else layout.notNumber
  else if exponent = 0 then
    if fraction = 0 then sign ++ '0' :: layout.wholeMark
    else
      let (n, k) := (Interval.ofDouble fraction (-1074)).shortest
      sign ++ layout.positive n k
  else
    let (n, k) := (Interval.ofDouble (fractionCount + fraction) (exponent - 1075)).shortest
    sign ++ layout.positive n k

def Layout.write (layout : Layout) (x : Float) : List Char :=
  let bits := x.toBits.toNat
  layout.writeParts (2048 * fractionCount ≤ bits) (bits / fractionCount % 2048) (bits % fractionCount)

end NormalOrder.Decimal
