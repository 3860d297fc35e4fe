/- All small terms over given names. -/
import NormalOrder.Term.Basic

namespace NormalOrder.Term

/-- The terms of a height of at most `height` without numbers, all of whose names are given: first
the variables, then the abstractions, then the applications of smaller ones. -/
def enumerate : Nat → List Name → List Term
  | 0, _ => []
  | 1, names => names.map var
  | height + 2, names =>
    let smaller := enumerate (height + 1) names
    names.map var ++ names.flatMap (fun x => smaller.map (lam x))
      ++ smaller.flatMap (fun f => smaller.map (app f))

end NormalOrder.Term
