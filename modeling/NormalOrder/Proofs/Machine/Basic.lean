/- A reducer of nameless terms that works like the reducer of terms, call by call: environments hold
suspended terms, abstractions are entered only for the final result, and all limits are kept. It
has no names to choose, and an operator is a name that nothing binds. -/
import NormalOrder.Proofs.Nameless.Leftmost
import NormalOrder.Reduction.Basic

namespace NormalOrder

/-- Puts values for the indices that pass `depth` binders. A value depends on how many abstractions
it stands in: the `entered` ones and those it is put under. -/
def Nameless.fill (value : Nat → Nat → Nameless) (entered : Nat) : Nat → Nameless → Nameless
  | depth, bound i => if i < depth then bound i else value (entered + depth) (i - depth)
  | _, free x => free x
  | depth, lam b => lam (b.fill value entered (depth + 1))
  | depth, app f a => app (f.fill value entered depth) (a.fill value entered depth)
  | _, num v => num v

namespace Machine

/-- What a variable without a value stands for. -/
inductive Atom
  | binder (earlier : Nat)
  | name (x : Name)

/-- What the indices of a term stand for, the innermost binder first. -/
inductive Cells
  | nil
  | atom (value : Atom) (outer : Cells)
  | thunk (term : Nameless) (home outer : Cells)

/-- A variable without a value, below the abstractions entered so far. -/
def Atom.term (entered : Nat) : Atom → Nameless
  | binder earlier => .bound (entered - 1 - earlier)
  | name x => .free x

def Atom.Fits (entered : Nat) : Atom → Prop
  | binder earlier => earlier < entered
  | name _ => True

namespace Cells

/-- What an index stands for below the abstractions entered so far. -/
def value : Cells → (entered index : Nat) → Nameless
  | nil, entered, i => .bound (entered + i)
  | atom a _, entered, 0 => a.term entered
  | thunk t home _, entered, 0 => t.fill (fun entered i => home.value entered i) entered 0
  | atom _ outer, entered, i + 1 => outer.value entered i
  | thunk _ _ outer, entered, i + 1 => outer.value entered i

def denote (cells : Cells) (entered : Nat) (t : Nameless) : Nameless :=
  t.fill cells.value entered 0

def suspended? : Cells → Nat → Option (Nameless × Cells)
  | thunk t home _, 0 => some (t, home)
  | atom _ outer, i + 1 => outer.suspended? i
  | thunk _ _ outer, i + 1 => outer.suspended? i
  | _, _ => none

def Fits (entered : Nat) : Cells → Prop
  | nil => True
  | atom a outer => a.Fits entered ∧ outer.Fits entered
  | thunk _ home outer => home.Fits entered ∧ outer.Fits entered

end Cells

inductive Head
  | closure (body : Nameless) (home : Cells)
  /-- Anything else; it is a normal form below the abstractions entered so far. -/
  | stuck (term : Nameless)

/-- A computation that counts contractions, also when it halts. -/
abbrev Counting := EStateM Halt Nat

/-- Counts a contraction, and halts if it is one too many. -/
def countStep (limits : Limits) : Counting Unit := do
  let steps := (← get) + 1
  set steps
  match limits.maxSteps with
  | some limit => if limit < steps then throw (.error (.stepLimit limit))
  | none => return

def operate (limits : Limits) (function argument : Nameless) : Counting (Option Nameless) :=
  match Operator.onNumbers? function argument with
  | some (.error e) => throw (.error e)
  | some (.ok result) => do
    countStep limits
    return some result
  | none => return none

mutual

/-- Head reduction of a nameless term, `depth` head reductions deep and below the abstractions
entered so far. -/
def head (limits : Limits) : (fuel depth entered : Nat) → Nameless → Cells → Counting Head
  | 0, _, _, _, _ => throw .outOfFuel
  | fuel + 1, depth, entered, t, cells =>
    if limits.maxDepth ≤ depth then throw (.error (.depthLimit limits.maxDepth))
    else
      match t with
      | .bound i =>
        match cells.suspended? i with
        | some (t, home) => head limits fuel (depth + 1) entered t home
        | none => return .stuck (cells.value entered i)
      | .free x => return .stuck (.free x)
      | .num v => return .stuck (.num v)
      | .lam body => return .closure body cells
      | .app f a => do
        match ← head limits fuel (depth + 1) entered f cells with
        | .closure body home =>
          countStep limits
          head limits fuel (depth + 1) entered body (.thunk a cells home)
        | .stuck g =>
          let v ← normal limits fuel (depth + 1) entered a cells
          match ← operate limits g v with
          | some result => head limits fuel (depth + 1) entered result .nil
          | none => return .stuck (.app g v)

def normal (limits : Limits) : (fuel depth entered : Nat) → Nameless → Cells → Counting Nameless
  | 0, _, _, _, _ => throw .outOfFuel
  | fuel + 1, depth, entered, t, cells => do
    match ← head limits fuel depth entered t cells with
    | .closure body home =>
      let value ← normal limits fuel depth (entered + 1) body (.atom (.binder entered) home)
      return .lam value
    | .stuck value => return value

end

end Machine

end NormalOrder
