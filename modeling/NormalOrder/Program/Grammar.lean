/- The grammar of program lines.

    line ::= "let" identifier "=" expression | expression
-/
import NormalOrder.Program.Basic
import NormalOrder.Term.Grammar

namespace NormalOrder.Grammar

open NormalOrder.Parser

/-- The word `let` and the blank behind it. -/
def letWord : List Piece :=
  [.one (· == 'l'), .one (· == 'e'), .one (· == 't'), .one Text.isInlineBlank]

/-- Letters and numerals of any script. -/
def identifier : List Piece := [.atLeastOne Text.isLetterOrNumeral]

def bindLine : Parser Line := do
  let _ ← pattern letWord
  let name ← afterInlineBlanks (pattern identifier)
  let _ ← afterInlineBlanks (character '=')
  let term ← expression .onLine
  return .bind (String.ofList name) term

def evalLine : Parser Line :=
  Line.eval <$> expression .onLine

/-- A line after blanks of any kind. What cannot be read as a binding may still be an expression:
`let` begins with the variable `l`. -/
def line : Parser Line :=
  afterBlanks (bindLine <|> evalLine)

end NormalOrder.Grammar
