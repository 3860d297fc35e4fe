/- Runs of decimal digits and the numbers they write. -/

namespace NormalOrder.Decimal

def digitValue (c : Char) : Nat :=
  c.toNat - '0'.toNat

/-- The number that a run of digits writes; leading zeros do not count. -/
def value (digits : List Char) : Nat :=
  digits.foldl (fun n c => 10 * n + digitValue c) 0

def digits (n : Nat) : List Char :=
  Nat.toDigits 10 n

end NormalOrder.Decimal
