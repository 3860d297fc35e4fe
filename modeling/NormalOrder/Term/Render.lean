/- Terms as text: inline, and as an outline with one node a line. -/
import NormalOrder.Decimal.Layout
import NormalOrder.Term.Basic

namespace NormalOrder.Term

/-- Numbers are written plainly from `10 ^ -4` up to `10 ^ 16`, and whole ones end in `.0`. -/
def numeral : Decimal.Layout where
  leastPlain := -4
  greatestPlain := 15
  wholeMark := ['.', '0']
  exponentMark := ['e']
  infinite := ['i', 'n', 'f']
  notNumber := ['N', 'a', 'N']

def write : Term → List Char → List Char
  | var x, rest => x.toList ++ rest
  | lam x b, rest => 'λ' :: x.toList ++ '.' :: b.write rest
  | app f a, rest => '(' :: f.write (' ' :: a.write (')' :: rest))
  | num v, rest => numeral.write v ++ rest

def inline (t : Term) : String :=
  String.ofList (t.write [])

/-- A line of an outline, two spaces further in for each level. -/
def outlineLine (level : Nat) (text : List Char) : List Char :=
  List.replicate (2 * level) ' ' ++ text

/-- The lines of an outline in front of others: a node stands before its parts, which stand one
level further in. -/
def writeOutline : Term → Nat → List (List Char) → List (List Char)
  | var x, level, rest => outlineLine level x.toList :: rest
  | lam x b, level, rest =>
    outlineLine level ('λ' :: x.toList ++ ['.']) :: b.writeOutline (level + 1) rest
  | app f a, level, rest =>
    outlineLine level ['β'] :: f.writeOutline (level + 1) (a.writeOutline (level + 1) rest)
  | num v, level, rest => outlineLine level (numeral.write v) :: rest

/-- The lines of a term's outline: `β` for an application, `λx.` for an abstraction. -/
def outlineLines (t : Term) : List (List Char) :=
  t.writeOutline 0 []

def outline (t : Term) : String :=
  String.ofList (['\n'].intercalate t.outlineLines)

end NormalOrder.Term
