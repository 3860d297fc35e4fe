/- The shortest decimal that reads back as a given binary number.

A positive double stands for all reals that round to it, an interval. Among the multiples of
`10 ^ k` the coarsest grid with a point in that interval gives the fewest digits, and of its points
the one nearest to the double is chosen. All comparisons are exact. -/

namespace NormalOrder.Decimal

/-- The reals that round to one positive double, in units of `2 ^ exponent`. -/
structure Interval where
  low : Nat
  value : Nat
  high : Nat
  exponent : Int
  /-- Whether the two ends round to the double as well. -/
  closed : Bool

/-- How many fractions a double can hold, in 52 bits. A bit that it does not hold stands in front. -/
def fractionCount : Nat := Nat.pow 2 52

/-- The interval of the double `significand * 2 ^ exponent`. Below a power of two the doubles lie
twice as close, so its lower half is half as wide. Ends round to the even neighbour. -/
def Interval.ofDouble (significand : Nat) (exponent : Int) : Interval where
  low := if significand = fractionCount then 4 * significand - 1 else 4 * significand - 2
  value := 4 * significand
  high := 4 * significand + 2
  exponent := exponent - 2
  closed := significand % 2 = 0

/-- What a unit of the interval measures on the grid of step `10 ^ k`, as a numerator. -/
def Interval.unit (i : Interval) (k : Int) : Nat :=
  Nat.pow 2 i.exponent.toNat * Nat.pow 10 (-k).toNat

/-- The step of the grid of `10 ^ k`, over the same denominator as `Interval.unit`. -/
def Interval.step (i : Interval) (k : Int) : Nat :=
  Nat.pow 2 (-i.exponent).toNat * Nat.pow 10 k.toNat

/-- Whether `n * 10 ^ k` lies in the interval. -/
def Interval.holds (i : Interval) (k : Int) (n : Nat) : Bool :=
  let low := i.low * i.unit k
  let high := i.high * i.unit k
  let point := n * i.step k
  if i.closed then low ≤ point && point ≤ high else low < point && point < high

/-- The largest multiple of `10 ^ k` that is not above the value, divided by `10 ^ k`. -/
def Interval.floor (i : Interval) (k : Int) : Nat :=
  i.value * i.unit k / i.step k

/-- The point of the grid of `10 ^ k` that is nearest to the value among those in the interval;
of two equally near the greater. -/
def Interval.nearest? (i : Interval) (k : Int) : Option Nat :=
  let n := i.floor k
  match i.holds k n, i.holds k (n + 1) with
  | true, true =>
    if 2 * (i.value * i.unit k) < (2 * n + 1) * i.step k then some n else some (n + 1)
  | true, false => some n
  | false, true => some (n + 1)
  | false, false => none

/-- The coarsest of the grids `10 ^ k`, `10 ^ (k - 1)`, … with a point in the interval. -/
def Interval.coarsest (i : Interval) : Nat → Int → Nat × Int
  | 0, k => (i.floor k, k)
  | n + 1, k =>
    match i.nearest? k with
    | some point => (point, k)
    | none => i.coarsest n (k - 1)

/-- An exponent of ten with all of the interval below `10 ^ k`. -/
def Interval.magnitude (i : Interval) : Int :=
  (i.high.log2 + 1 + i.exponent) * 30103 / 100000 + 2

/-- The shortest decimal `n * 10 ^ k` in the interval, as `(n, k)`. Seventeen digits always do, and
the first grid is at most three places above the first digit. -/
def Interval.shortest (i : Interval) : Nat × Int :=
  i.coarsest 21 i.magnitude

end NormalOrder.Decimal
