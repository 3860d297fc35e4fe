/- A place in a text. -/

namespace NormalOrder

/-- A place in a text, between what has been read and what has not. -/
structure Cursor where
  taken : List Char
  rest : List Char
deriving DecidableEq

namespace Cursor

def start (text : String) : Cursor := ⟨[], text.toList⟩

def source (c : Cursor) : List Char :=
  c.taken.reverse ++ c.rest

/-- The bytes before the place, in UTF-8. -/
def offset (c : Cursor) : Nat :=
  (String.ofList c.taken.reverse).utf8ByteSize

/-- The line of the place, counted from one. -/
def lineNumber (c : Cursor) : Nat :=
  c.taken.count '\n' + 1

def atEnd (c : Cursor) : Bool :=
  c.rest.isEmpty

/-- What is left of the line of the place. The line break does not belong to it, also when it is a
carriage return and a line feed. -/
def restOfLine (c : Cursor) : List Char :=
  let line := c.rest.takeWhile (· ≠ '\n')
  if line.length < c.rest.length && line.getLast? = some '\r' then line.dropLast else line

def next? (c : Cursor) : Option (Char × Cursor) :=
  match c.rest with
  | [] => none
  | ch :: rest => some (ch, ⟨ch :: c.taken, rest⟩)

/-- The place `n` characters on, or the end. -/
def advance (n : Nat) (c : Cursor) : Cursor :=
  ⟨(c.rest.take n).reverse ++ c.taken, c.rest.drop n⟩

def skipWhile (p : Char → Bool) (c : Cursor) : Cursor :=
  c.advance (c.rest.takeWhile p).length

@[simp] theorem source_start (text : String) : (start text).source = text.toList := rfl

@[simp] theorem source_advance (n : Nat) (c : Cursor) : (c.advance n).source = c.source := by
  simp [advance, source]

@[simp] theorem rest_skipWhile (p : Char → Bool) (c : Cursor) :
    (c.skipWhile p).rest = c.rest.dropWhile p := by
  obtain ⟨taken, rest⟩ := c
  simp only [skipWhile, advance]
  induction rest with
  | nil => rfl
  | cons d rest ih => by_cases h : p d <;> simp_all

end Cursor

end NormalOrder
