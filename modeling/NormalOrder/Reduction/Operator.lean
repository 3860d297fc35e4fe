/- The operators on numbers. -/
import NormalOrder.Env
import NormalOrder.Reduction.Basic

namespace NormalOrder

/-- What a name does with two numbers as long as nothing binds it. -/
inductive Operator
  | add
  | sub
  | mul
  | div
  | eq
deriving DecidableEq

namespace Operator

def ofName? : Name → Option Operator
  | "+" => some add
  | "-" => some sub
  | "*" => some mul
  | "/" => some div
  | "=" => some eq
  | _ => none

/-- The result of an operator on two numbers. Only division by a zero, of either sign, has none. -/
def apply : Operator → Float → Float → Except ReductionError Term
  | add, left, right => .ok (.num (left + right))
  | sub, left, right => .ok (.num (left - right))
  | mul, left, right => .ok (.num (left * right))
  | div, left, right =>
    if right == 0.0 then .error .divisionByZero else .ok (.num (left / right))
  | eq, left, right => .ok (Term.truth (left == right))

/-- The result of applying a term to another, if that is an operator applied to two numbers and the
environment of the application has no entry for the operator's name. -/
def contract? (function argument : Term) (env : Env) : Except ReductionError (Option Term) :=
  match function, argument with
  | .app (.var x) (.num left), .num right =>
    match env.lookup x, ofName? x with
    | none, some op => (op.apply left right).map some
    | _, _ => .ok none
  | _, _ => .ok none

end Operator

end NormalOrder
