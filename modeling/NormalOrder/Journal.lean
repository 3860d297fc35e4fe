/- The journal of a run: what happened, in order, told in one line each. -/
import NormalOrder.Term.Render

namespace NormalOrder

inductive Level
  | debug
  | trace
deriving DecidableEq

/-- Something that happens in a run. -/
inductive Event
  /-- An argument was put for the parameter of an abstraction. -/
  | applied (step : Nat) (argument : Term) (param : Name) (body : Term)
  /-- A binder was renamed so as not to capture a name. -/
  | renamed (old new : Name)
  | reduced (term value : Term) (steps : Nat)
  | bound (name : Name) (value : Term)
  | parsed (lines : Nat)
  | running (bytes : Nat)

abbrev Journal := List Event

namespace Event

def level : Event → Level
  | applied .. | renamed .. => .trace
  | reduced .. | bound .. | parsed .. | running .. => .debug

def message : Event → String
  | applied step argument param body =>
    let argument := argument.inline
    let body := body.inline
    s!"Beta step {step}: substituting {argument} for {param} in {body}."
  | renamed old new => s!"Alpha conversion renames {old} to {new}."
  | reduced term value steps =>
    let term := term.inline
    let value := value.inline
    s!"Reduced {term} to {value} in {steps} steps."
  | bound name value =>
    let value := value.inline
    s!"Bound {name} to {value}."
  | parsed lines => s!"Parsed {lines} program lines."
  | running bytes => s!"Running {bytes} bytes of source."

/-- An event as a line of the journal, its level in front. -/
def line (event : Event) : String :=
  let message := event.message
  match event.level with
  | .debug => s!"DEBUG {message}"
  | .trace => s!"TRACE {message}"

end Event

/-- The lines of a journal that are told at a level: at `debug` all but the traces. -/
def Journal.lines (journal : Journal) (level : Level) : List String :=
  (journal.filter fun event => level = .trace || event.level = .debug).map Event.line

end NormalOrder
