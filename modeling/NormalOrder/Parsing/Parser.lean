/- Parsers and the ways to build them.

A parser reads at a cursor and fails, or gives a value and the cursor after what it read. Parsers
are state transformers, so `>>=` runs one after the other, `p <|> q` tries `q` where `p` fails,
`*>` and `<*` keep one of two values, and `pure` reads nothing. -/
import NormalOrder.Parsing.Cursor
import NormalOrder.Text.Blank
import NormalOrder.Text.Letter

namespace NormalOrder

abbrev Parser := StateT Cursor Option

namespace Parser

def satisfy (p : Char → Bool) : Parser Char := fun c =>
  c.next?.filter fun (ch, _) => p ch

def character (expected : Char) : Parser Char :=
  satisfy (· == expected)

def digit : Parser Char :=
  satisfy Char.isDigit

def letter : Parser Char :=
  satisfy Text.isAlphabetic

def literal (text : List Char) : Parser (List Char) := fun c =>
  if text.isPrefixOf c.rest then some (text, c.advance text.length) else none

/-- How often the characters of a class may follow each other in a pattern. -/
inductive Piece
  | one (p : Char → Bool)
  | atLeastOne (p : Char → Bool)
  | anyNumber (p : Char → Bool)

/-- How many characters at the front of a text match a piece. -/
def Piece.length? (text : List Char) : Piece → Option Nat
  | one p => if (text.take 1).any p then some 1 else none
  | atLeastOne p => if (text.take 1).any p then some (text.takeWhile p).length else none
  | anyNumber p => some (text.takeWhile p).length

/-- How many characters at the front of a text match pieces one after the other. A piece takes all
it can, so a pattern should not have a piece begin with what the piece before it repeats. -/
def matchLength? : List Piece → List Char → Option Nat
  | [], _ => some 0
  | piece :: pieces, text => do
    let n ← piece.length? text
    let m ← matchLength? pieces (text.drop n)
    return n + m

/-- What matches a pattern; it is the value. -/
def pattern (pieces : List Piece) : Parser (List Char) := fun c =>
  match matchLength? pieces c.rest with
  | some n => some (c.rest.take n, c.advance n)
  | none => none

/-- Runs a parser again and again, at most `n` times, until it fails or reads nothing. -/
def manyWithin {α : Type} (p : Parser α) : Nat → Cursor → List α × Cursor
  | 0, c => ([], c)
  | n + 1, c =>
    match p c with
    | none => ([], c)
    | some (value, next) =>
      if next.rest.length < c.rest.length then
        let (values, last) := manyWithin p n next
        (value :: values, last)
      else ([value], c)

/-- Runs a parser as often as it succeeds, and stops after a success that read nothing. Each other
success leaves less to read, so one run more than there are characters is enough. -/
def many {α : Type} (p : Parser α) : Parser (List α) := fun c =>
  some (manyWithin p (c.rest.length + 1) c)

def many1 {α : Type} (p : Parser α) : Parser (List α) := fun c =>
  (many p c).filter fun (values, _) => !values.isEmpty

def skipBlanks : Parser Unit := fun c =>
  some ((), c.skipWhile Text.isBlank)

def skipInlineBlanks : Parser Unit := fun c =>
  some ((), c.skipWhile Text.isInlineBlank)

def afterInlineBlanks {α : Type} (p : Parser α) : Parser α :=
  skipInlineBlanks *> p

def afterBlanks {α : Type} (p : Parser α) : Parser α :=
  skipBlanks *> p

end Parser

end NormalOrder
