/- Programs: lines that bind names to terms or ask for the value of a term. -/
import NormalOrder.Term.Render

namespace NormalOrder

inductive Line
  /-- Binds a name to the value of a term, for the lines below. -/
  | bind (name : Name) (term : Term)
  | eval (term : Term)
deriving DecidableEq

abbrev Program := List Line

def Line.term : Line → Term
  | bind _ t => t
  | eval t => t

def Line.inline : Line → String
  | bind x t =>
    let t := t.inline
    s!"let {x} = {t}"
  | eval t => t.inline

/-- The values of a program, one a line. -/
def Program.inlineValues (values : List Term) : String :=
  String.ofList (['\n'].intercalate (values.map fun t => t.write []))

/-- The values of a program as outlines, with an empty line between them. -/
def Program.outlineValues (values : List Term) : String :=
  String.ofList (['\n', '\n'].intercalate (values.map fun t => ['\n'].intercalate t.outlineLines))

end NormalOrder
