/- Terms of the λ-calculus with numbers: their names, free names and size. -/
import NormalOrder.Name

namespace NormalOrder

/-- A term of the λ-calculus with numbers. Bound names are part of it: `λx.x` and `λy.y` differ. -/
inductive Term
  | var (name : Name)
  | lam (param : Name) (body : Term)
  | app (function argument : Term)
  | num (value : Float)
deriving DecidableEq, Inhabited

namespace Term

/-- Equality of terms with numbers compared as doubles: `0.0` and `-0.0` agree, and a result that
is no number agrees with nothing. -/
def agrees : Term → Term → Bool
  | var x, var y => x == y
  | lam x b, lam y c => x == y && b.agrees c
  | app f a, app g b => f.agrees g && a.agrees b
  | num x, num y => x == y
  | _, _ => false

instance : BEq Term := ⟨agrees⟩

def freeNames : Term → Names
  | var x => [x]
  | lam x b => b.freeNames.without x
  | app f a => f.freeNames.union a.freeNames
  | num _ => []

/-- All names, those of binders included. -/
def names : Term → Names
  | var x => [x]
  | lam x b => Names.union [x] b.names
  | app f a => f.names.union a.names
  | num _ => []

/-- The nodes on a longest path from the root to a leaf. -/
def height : Term → Nat
  | var _ => 1
  | lam _ b => b.height + 1
  | app f a => max f.height a.height + 1
  | num _ => 1

/-- The two-place selectors that stand for truth values: the first argument for true. -/
def truth (b : Bool) : Term :=
  lam "1" (lam "2" (var (if b then "1" else "2")))

theorem freeNames_subset_names (t : Term) : t.freeNames ⊆ t.names := by
  induction t with
  | var x => simp [freeNames, names]
  | lam x b ih =>
    intro y hy
    simp only [freeNames, Names.mem_without] at hy
    simp only [names, Names.mem_union]
    exact .inr (ih hy.1)
  | app f a hf ha =>
    intro y hy
    simp only [freeNames, Names.mem_union] at hy
    simp only [names, Names.mem_union]
    exact hy.imp (fun h => hf h) (fun h => ha h)
  | num _ => simp [freeNames]

end Term

end NormalOrder
