/- Sets of characters given by ranges of code points. -/

namespace NormalOrder.Text

/-- Closed ranges of code points, each given by its first and its last. -/
abbrev Ranges := List (Nat × Nat)

/-- A character belongs to a list of ranges if its code point lies in one of them. -/
def Ranges.contains (ranges : Ranges) (c : Char) : Bool :=
  ranges.any fun (first, last) => first ≤ c.toNat && c.toNat ≤ last

theorem Ranges.contains_iff {ranges : Ranges} {c : Char} :
    ranges.contains c = true ↔ ∃ r ∈ ranges, r.1 ≤ c.toNat ∧ c.toNat ≤ r.2 := by
  simp [Ranges.contains]

end NormalOrder.Text
