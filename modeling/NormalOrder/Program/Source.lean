/- Reading whole texts: a term or a program, or where reading stops. -/
import NormalOrder.Program.Grammar
import NormalOrder.Text.Quoted

namespace NormalOrder

inductive ParseError
  | nothing
  /-- What is left of the line where reading stops, and the number of that line. -/
  | unexpected (found : String) (line : Nat)
deriving DecidableEq

namespace ParseError

def message : ParseError → String
  | nothing => "Nothing to parse."
  | unexpected found line =>
    let found := String.ofList (Text.quoted found.toList)
    s!"Unable to parse input at line {line}: {found}."

def stopped (c : Cursor) : ParseError :=
  unexpected (String.ofList c.restOfLine) c.lineNumber

end ParseError

/-- Reads a whole text. White space may stand around it. Where the parser fails, the error is at
its start, and where it leaves something, the error is at what it leaves. -/
def Parser.readAll {α : Type} (p : Parser α) (text : String) : Except ParseError α :=
  let content := (Cursor.start text).skipWhile Text.isBlank
  if content.atEnd then .error .nothing
  else
    match p content with
    | none => .error (.stopped content)
    | some (value, next) =>
      let last := next.skipWhile Text.isBlank
      if last.atEnd then .ok value else .error (.stopped last)

def Term.parse (text : String) : Except ParseError Term :=
  (Grammar.expression .onLine).readAll text

def Program.parse (text : String) : Except ParseError Program :=
  Grammar.line.many.readAll text

end NormalOrder
