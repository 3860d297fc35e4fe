/- Reduction to normal form, in normal order.

A head reduction takes a term as far as needed to see whether it can be applied. Applying an
abstraction binds its parameter to the suspended argument, which is reduced only where the
parameter is met. A full reduction goes on under the binders of the result, and renames a binder
where a value put into the body mentions its name. -/
import NormalOrder.Reduction.Operator
import NormalOrder.Term.Rename

namespace NormalOrder

inductive Head
  | closure (param : Name) (body : Term) (home : Env)
  /-- Anything else; it is a normal form. -/
  | stuck (term : Term)

namespace Env

/-- The free names of the values that a name brings into a term: none unless it is resolved. -/
def broughtBy (env : Env) (x : Name) : Names :=
  match env.lookup x with
  | some (.resolved s) => s.freeNames
  | _ => []

/-- The free names of all values put into the body of an abstraction. -/
def broughtUnder (env : Env) (param : Name) (body : Term) : Names :=
  Names.unions ((body.freeNames.without param).map env.broughtBy)

end Env

namespace Reducing

/-- The binder and body under which an abstraction is reduced: its own, unless a value put into the
body mentions the binder. -/
def openBinder (param : Name) (body : Term) (home : Env) : Reducing (Name × Term) := do
  let brought := home.broughtUnder param body
  if param ∈ brought then
    match body.rebind param brought with
    | .ok (new, renamed) =>
      tell (.renamed param new)
      return (new, renamed)
    | .error e => throw (.ofNameError e)
  else return (param, body)

/-- The result of an operator, if it applies. A division by zero halts; a result counts as a
contraction. -/
def operate (limits : Limits) (function argument : Term) (env : Env) :
    Reducing (Option Term) := do
  match Operator.contract? function argument env with
  | .error e => throw (.error e)
  | .ok none => return none
  | .ok (some result) =>
    countStep limits
    return some result

mutual

/-- Head reduction of a term, `depth` head reductions deep. The recursion is at most `fuel` calls
deep. -/
def head (limits : Limits) : (fuel depth : Nat) → Term → Env → Reducing Head
  | 0, _, _, _ => throw .outOfFuel
  | fuel + 1, depth, t, env =>
    if limits.maxDepth ≤ depth then throw (.error (.depthLimit limits.maxDepth))
    else
      match t with
      | .var x =>
        match env.lookup x with
        -- A value is reduced where it was bound, not where it is met.
        | some (.resolved s) => head limits fuel (depth + 1) s.term s.home
        | _ => return .stuck (.var x)
      | .num v => return .stuck (.num v)
      | .lam x body => return .closure x body env
      | .app f a => do
        match ← head limits fuel (depth + 1) f env with
        | .closure x body home =>
          countStep limits
          tellApplied a x body
          head limits fuel (depth + 1) body (home.resolved x (env.suspend a))
        | .stuck g =>
          let v ← normal limits fuel (depth + 1) a env
          match ← operate limits g v env with
          -- A truth value may be applied next; it has no free names.
          | some result => head limits fuel (depth + 1) result .empty
          | none => return .stuck (.app g v)

/-- Full reduction of a term, `depth` head reductions deep. Bodies of abstractions count as no
deeper than the abstraction. -/
def normal (limits : Limits) : (fuel depth : Nat) → Term → Env → Reducing Term
  | 0, _, _, _ => throw .outOfFuel
  | fuel + 1, depth, t, env => do
    match ← head limits fuel depth t env with
    | .closure x body home =>
      let (y, renamed) ← openBinder x body home
      let value ← normal limits fuel depth renamed (home.unresolved y)
      return .lam y value
    | .stuck value => return value

end

/-- Full reduction of a whole term; it tells the value once it has it. -/
def whole (limits : Limits) (fuel : Nat) (t : Term) (env : Env) : Reducing Term := do
  let value ← normal limits fuel 0 t env
  modify fun tally => { tally with events := .reduced t value tally.steps :: tally.events }
  return value

end Reducing

/-- The end of a reduction: a normal form or a halt, with the tally. -/
abbrev Outcome := EStateM.Result Halt Tally Term

/-- Reduces a term to normal form in an environment, with a recursion at most `fuel` calls deep. -/
def Term.reduceWithin (fuel : Nat) (limits : Limits) (env : Env) (t : Term) : Outcome :=
  Reducing.whole limits fuel t env {}

def ampleFuel : Nat := Nat.pow 2 60

def Term.reduce (limits : Limits) (env : Env) (t : Term) : Outcome :=
  t.reduceWithin ampleFuel limits env

end NormalOrder
