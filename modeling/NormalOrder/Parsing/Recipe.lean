/- Parsers described as data.

A recipe names the way its parser is built from smaller ones. References make recipes recursive:
each stands for the recipe that a list of definitions gives it. -/
import NormalOrder.Parsing.Parser

namespace NormalOrder

/-- How a parser is built; `ν` holds the values that a recipe gives outright. -/
inductive Recipe (ν : Type)
  | character (c : Char)
  | digit
  | letter
  | oneOf (set : List Char)
  | noneOf (set : List Char)
  | literal (text : List Char)
  | pattern (pieces : List Parser.Piece)
  | give (value : ν)
  | fail
  | orElse (first second : Recipe ν)
  | both (first second : Recipe ν)
  /-- A text, and the same text once more. -/
  | twice (first : Recipe ν)
  | tagged (tag : ν) (inner : Recipe ν)
  /-- One after the other, with the value of the second. -/
  | second (first second : Recipe ν)
  /-- One after the other, with the value of the first. -/
  | first (first second : Recipe ν)
  | many (inner : Recipe ν)
  | many1 (inner : Recipe ν)
  | blanks
  | inlineBlanks
  | afterBlanks (inner : Recipe ν)
  | afterInlineBlanks (inner : Recipe ν)
  /-- Whatever the definitions say of a name. -/
  | ref (name : String)

namespace Recipe

/-- What a recipe's parser gives. -/
inductive Value (ν : Type)
  | nothing
  | given (value : ν)
  | text (chars : List Char)
  | items (values : List (Value ν))

variable {ν : Type}

def Value.text? : Value ν → Option (List Char)
  | text chars => some chars
  | _ => none

def ofChar (p : Parser Char) : Parser (Value ν) :=
  (fun c => Value.text [c]) <$> p

/-- The parser of a recipe, given the parsers of its references. -/
def parser (refs : String → Parser (Value ν)) : Recipe ν → Parser (Value ν)
  | character c => ofChar (Parser.character c)
  | digit => ofChar Parser.digit
  | letter => ofChar Parser.letter
  | oneOf set => ofChar (Parser.satisfy (· ∈ set))
  | noneOf set => ofChar (Parser.satisfy (· ∉ set))
  | literal text => Value.text <$> Parser.literal text
  | pattern pieces => Value.text <$> Parser.pattern pieces
  | give value => pure (.given value)
  | fail => failure
  | orElse p q => p.parser refs <|> q.parser refs
  | both p q => do
    let first ← p.parser refs
    let second ← q.parser refs
    return .items [first, second]
  | twice p => do
    match (← p.parser refs).text? with
    | some chars => Value.text <$> Parser.literal chars
    | none => failure
  | tagged tag p => (fun value => Value.items [.given tag, value]) <$> p.parser refs
  | second p q => p.parser refs *> q.parser refs
  | first p q => p.parser refs <* q.parser refs
  | many p => Value.items <$> (p.parser refs).many
  | many1 p => Value.items <$> (p.parser refs).many1
  | blanks => (fun _ => Value.nothing) <$> Parser.skipBlanks
  | inlineBlanks => (fun _ => Value.nothing) <$> Parser.skipInlineBlanks
  | afterBlanks p => (p.parser refs).afterBlanks
  | afterInlineBlanks p => (p.parser refs).afterInlineBlanks
  | ref name => refs name

abbrev Definitions (ν : Type) := List (String × Recipe ν)

/-- The parser of a name, with references at most `depth` deep inside one another. -/
def Definitions.parser (defs : Definitions ν) : (depth : Nat) → String → Parser (Value ν)
  | 0, _ => failure
  | depth + 1, name =>
    match defs.lookup name with
    | some recipe => recipe.parser (Definitions.parser defs depth)
    | none => failure

/-- Runs a recipe. A reference met again with nothing read in between would never end, so those of a
run that ends are nested no deeper than there are names and places. -/
def run (defs : Definitions ν) (recipe : Recipe ν) : Parser (Value ν) := fun c =>
  recipe.parser (defs.parser ((defs.length + 1) * (c.rest.length + 1))) c

end Recipe

end NormalOrder
