/- Reductions: their limits, the ways they end, and what they count. -/
import NormalOrder.Journal

namespace NormalOrder

/-- Bounds on one reduction, which need not end by itself. -/
structure Limits where
  maxSteps : Option Nat := some 1000000
  /-- The deepest nesting of head reductions. -/
  maxDepth : Nat := 512
deriving DecidableEq

inductive ReductionError
  | divisionByZero
  | emptyName
  /-- More than `limit` contractions were needed. -/
  | stepLimit (limit : Nat)
  /-- Head reductions nested deeper than `limit`. -/
  | depthLimit (limit : Nat)
deriving DecidableEq

inductive Halt
  | error (cause : ReductionError)
  /-- A binder had to be renamed, and the number at its end was the largest there is. -/
  | suffixOverflow
  /-- The recursion was cut off before it ended. -/
  | outOfFuel
deriving DecidableEq

def ReductionError.message : ReductionError → String
  | divisionByZero => "Division by zero."
  | emptyName => "Attempted to rename an empty identifier."
  | stepLimit limit => s!"Reduction did not converge within {limit} steps."
  | depthLimit limit => s!"Reduction did not converge within a recursion depth of {limit}."

def Halt.message : Halt → String
  | error cause => cause.message
  | suffixOverflow => "attempt to add with overflow"
  | outOfFuel => "The recursion was cut off."

/-- A binder that cannot be renamed ends the reduction. -/
def Halt.ofNameError : NameError → Halt
  | .empty => .error .emptyName
  | .suffixOverflow => .suffixOverflow

structure Tally where
  steps : Nat := 0
  events : List Event := []

/-- A computation within a reduction; it keeps its tally also when it halts. -/
abbrev Reducing := EStateM Halt Tally

namespace Reducing

/-- Counts a contraction, and halts if it is one too many. -/
def countStep (limits : Limits) : Reducing Unit := do
  let tally ← get
  let steps := tally.steps + 1
  set { tally with steps }
  match limits.maxSteps with
  | some limit => if limit < steps then throw (.error (.stepLimit limit))
  | none => return

def tell (event : Event) : Reducing Unit :=
  modify fun tally => { tally with events := event :: tally.events }

/-- Tells that the contraction just counted puts an argument for a parameter. -/
def tellApplied (argument : Term) (param : Name) (body : Term) : Reducing Unit :=
  modify fun tally =>
    { tally with events := .applied tally.steps argument param body :: tally.events }

end Reducing

end NormalOrder
