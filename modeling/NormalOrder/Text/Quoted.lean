/- Quoted text: what cannot be shown as it is, or would end the quotation, is escaped. -/
import NormalOrder.Text.Visible

namespace NormalOrder.Text

/-- The code point of a character, in hexadecimal between braces. -/
def escapedCodePoint (c : Char) : List Char :=
  '\\' :: 'u' :: '\x7b' :: Nat.toDigits 16 c.toNat ++ ['\x7d']

/-- A character as it stands inside quotation marks. -/
def escaped (c : Char) : List Char :=
  if c == '\x00' then ['\\', '0']
  else if c == '\t' then ['\\', 't']
  else if c == '\r' then ['\\', 'r']
  else if c == '\n' then ['\\', 'n']
  else if c == '\\' || c == '"' then ['\\', c]
  else if isVisible c then [c]
  else escapedCodePoint c

def quoted (text : List Char) : List Char :=
  '"' :: text.flatMap escaped ++ ['"']

end NormalOrder.Text
