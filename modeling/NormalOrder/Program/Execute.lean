/- Running a program line by line. -/
import NormalOrder.Program.Basic
import NormalOrder.Reduction.Normal

namespace NormalOrder

/-- The line of a program that has no value, counted from zero, and why. -/
structure LineHalt where
  line : Nat
  halt : Halt
deriving DecidableEq

/-- The end of a line in words; lines count from one. -/
def LineHalt.message (e : LineHalt) : String :=
  let number := e.line + 1
  let cause := e.halt.message
  s!"Statement {number}: {cause}"

/-- A computation that keeps a journal, the latest event first, also when it fails. -/
abbrev Telling (ε : Type) := EStateM ε (List Event)

namespace Telling

def tell {ε : Type} (event : Event) : Telling ε Unit :=
  modify (event :: ·)

def mapError {ε δ α : Type} (f : ε → δ) (x : Telling ε α) : Telling δ α := fun events =>
  match x events with
  | .ok a events => .ok a events
  | .error e events => .error (f e) events

/-- Reduces a term, and takes over what the reduction tells. -/
def reduce (fuel : Nat) (limits : Limits) (env : Env) (t : Term) : Telling Halt Term :=
  fun events =>
    match t.reduceWithin fuel limits env with
    | .ok value tally => .ok value (tally.events ++ events)
    | .error halt tally => .error halt (tally.events ++ events)

end Telling

namespace Program

/-- Runs the lines from number `line` on. A value that is bound keeps no environment: it was
reduced where all names of the lines above were in scope, and what is still free in it stays
free. -/
def executeFrom (fuel : Nat) (limits : Limits) :
    (line : Nat) → Env → Program → Telling LineHalt (List Term)
  | _, _, [] => return []
  | line, env, .bind x t :: rest => do
    let value ← (Telling.reduce fuel limits env t).mapError (LineHalt.mk line)
    Telling.tell (.bound x value)
    executeFrom fuel limits (line + 1) (env.resolved x (Env.empty.suspend value)) rest
  | line, env, .eval t :: rest => do
    let value ← (Telling.reduce fuel limits env t).mapError (LineHalt.mk line)
    let values ← executeFrom fuel limits (line + 1) env rest
    return value :: values

def execute (fuel : Nat) (limits : Limits) (program : Program) : Telling LineHalt (List Term) :=
  executeFrom fuel limits 0 .empty program

end Program

end NormalOrder
