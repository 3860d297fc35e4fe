/- The grammar of terms.

    expression ::= variable | number | parenthesized | abstraction [expression]
    term       ::= variable | number | parenthesized | abstraction
    parenthesized ::= "(" abstraction [expression] ")" | "(" expression expression ")"
    abstraction ::= ("\" | "λ") variable "." term

An expression that follows an abstraction is its argument, so that `λx.λy.x a` applies `λx.λy.x`.
Every token may have blanks before it: outside parentheses only those that stay on the line. -/
import NormalOrder.Decimal.Reading
import NormalOrder.Parsing.Parser
import NormalOrder.Term.Basic

namespace NormalOrder.Grammar

open NormalOrder.Parser

inductive Position
  /-- Outside parentheses; a line break ends the line. -/
  | onLine
  /-- Inside parentheses; a line break is only a blank. -/
  | nested
deriving DecidableEq

def Position.blanks : Position → Parser Unit
  | onLine => skipInlineBlanks
  | nested => skipBlanks

/-- A variable is any character but a blank, a digit or one that the grammar uses. -/
def isVariableChar (c : Char) : Bool :=
  !(c == '.' || c == '\\' || c == 'λ' || c == '(' || c == ')') && !c.isDigit && !Text.isBlank c

def symbol (pos : Position) (expected : Char) : Parser Char :=
  pos.blanks *> character expected

def lambda (pos : Position) : Parser Char :=
  pos.blanks *> (character '\\' <|> character 'λ')

def digitRun : List Piece := [.atLeastOne Char.isDigit]

def variableName (pos : Position) : Parser Name :=
  Char.toString <$> (pos.blanks *> satisfy isVariableChar)

def variableTerm (pos : Position) : Parser Term :=
  Term.var <$> variableName pos

def number (pos : Position) : Parser Term :=
  (fun ds => Term.num (Decimal.ofDigits ds)) <$> (pos.blanks *> pattern digitRun)

/-- An abstraction with a body read by `body`. -/
def abstraction (body : Parser Term) (pos : Position) : Parser Term := do
  let _ ← lambda pos
  let param ← variableName pos
  let _ ← symbol pos '.'
  let body ← body
  return .lam param body

/-- An abstraction, applied to the expression that follows it, if one does. -/
def appliedAbstraction (body argument : Parser Term) (pos : Position) : Parser Term := do
  let function ← abstraction body pos
  Term.app function <$> argument <|> pure function

def application (expression : Parser Term) : Parser Term := do
  let function ← expression
  let argument ← expression
  return .app function argument

/-- What may stand in parentheses: an abstraction, perhaps applied, or an application. -/
def parenthesized (term expression : Position → Parser Term) (pos : Position) : Parser Term :=
  symbol pos '('
    *> (appliedAbstraction (term .nested) (expression .nested) .nested <* symbol .nested ')'
      <|> application (expression .nested) <* symbol .nested ')')

mutual

/-- A term with at most `fuel` terms and expressions inside one another. -/
def termWithin : (fuel : Nat) → Position → Parser Term
  | 0, _ => failure
  | fuel + 1, pos =>
    variableTerm pos <|> number pos
      <|> parenthesized (termWithin fuel) (expressionWithin fuel) pos
      <|> abstraction (termWithin fuel pos) pos

/-- An expression with at most `fuel` terms and expressions inside one another. -/
def expressionWithin : (fuel : Nat) → Position → Parser Term
  | 0, _ => failure
  | fuel + 1, pos =>
    variableTerm pos <|> number pos
      <|> parenthesized (termWithin fuel) (expressionWithin fuel) pos
      <|> appliedAbstraction (termWithin fuel pos) (expressionWithin fuel pos) pos

end

/-- An expression. Whatever stands inside another stands behind one of its characters, so the
nesting is at most the length of the text. -/
def expression (pos : Position) : Parser Term := fun c =>
  expressionWithin (c.rest.length + 1) pos c

end NormalOrder.Grammar
