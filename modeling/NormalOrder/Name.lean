/- Names, their successors, and finite sets of names. -/
import NormalOrder.Decimal.Digits

namespace NormalOrder

/-- Any text can name a variable. -/
abbrev Name := String

inductive NameError
  | empty
  /-- The number at its end is already the largest there is. -/
  | suffixOverflow
deriving DecidableEq

namespace Name

/-- The largest number that counts as one at the end of a name: the largest of 64 bits. -/
def largestSuffix : Nat := 18446744073709551615

/-- A name without the digits at its end. -/
def stem (name : Name) : List Char :=
  (name.toList.reverse.dropWhile Char.isDigit).reverse

/-- The digits at the end of a name. -/
def suffix (name : Name) : List Char :=
  (name.toList.reverse.takeWhile Char.isDigit).reverse

theorem stem_append_suffix (name : Name) : name.stem ++ name.suffix = name.toList := by
  rw [stem, suffix, ← List.reverse_append, List.takeWhile_append_dropWhile, List.reverse_reverse]

/-- The name after this one: the number at its end is counted up, and a name without one, or with
one too large to be a number, gets a `1`. -/
def next (name : Name) : Except NameError Name :=
  let n := Decimal.value name.suffix
  if name = "" then .error .empty
  else if name.suffix = [] || largestSuffix < n then .ok (name ++ "1")
  else if n = largestSuffix then .error .suffixOverflow
  else .ok (String.ofList (name.stem ++ Decimal.digits (n + 1)))

/-- The names that follow a name, one after the other, up to the first that has no successor. -/
def successors : Nat → Name → List (Except NameError Name)
  | 0, _ => []
  | n + 1, name =>
    match name.next with
    | .ok following => .ok following :: successors n following
    | .error e => [.error e]

/-- The first of a name and its successors that is not taken, if one of the first `n` is not, and
else the one after them. -/
def firstFree (taken : List Name) : Nat → Name → Except NameError Name
  | 0, name => .ok name
  | n + 1, name => if name ∈ taken then name.next >>= firstFree taken n else .ok name

/-- The first successor of a name that is not taken. Successors never repeat, so one of the first
`taken.length + 1` is free. -/
def fresh (name : Name) (taken : List Name) : Except NameError Name :=
  name.next >>= firstFree taken taken.length

end Name

/-- A finite set of names, without repetitions; the order has no meaning. -/
abbrev Names := List Name

namespace Names

def union (xs ys : Names) : Names :=
  xs ++ ys.filter (· ∉ xs)

def without (xs : Names) (x : Name) : Names :=
  xs.filter (· ≠ x)

/-- All names of a family of sets. -/
def unions (sets : List Names) : Names :=
  sets.foldr union []

def sorted (xs : Names) : List Name :=
  xs.mergeSort fun x y => !decide (y < x)

@[simp] theorem mem_union {xs ys : Names} {x : Name} : x ∈ union xs ys ↔ x ∈ xs ∨ x ∈ ys := by
  by_cases h : x ∈ xs <;> simp [union, h]

@[simp] theorem mem_without {xs : Names} {x y : Name} : y ∈ without xs x ↔ y ∈ xs ∧ y ≠ x := by
  simp [without]

@[simp] theorem mem_unions {sets : List Names} {x : Name} :
    x ∈ unions sets ↔ ∃ xs ∈ sets, x ∈ xs := by
  induction sets with
  | nil => simp [unions]
  | cons xs sets ih =>
    rw [show unions (xs :: sets) = union xs (unions sets) from rfl]
    simp [ih]

theorem nodup_union {xs ys : Names} (hx : xs.Nodup) (hy : ys.Nodup) : (union xs ys).Nodup := by
  refine List.nodup_append.mpr ⟨hx, hy.filter _, ?_⟩
  intro x hx' y hy' h
  subst h
  simp_all

end Names

end NormalOrder
