/-
Text in quotation marks, with escapes for what a reader would not see.

A quotation mark and a backslash are escaped by a backslash, and so are, by a
letter or digit, the tab, the line feed, the carriage return and the character
zero.  Any other character that is not seen by itself is written as its code
point between braces.
-/
import Formdoc.Text.CodePoint
import Formdoc.Text.Invisible

namespace Formdoc.Text

/-- The hexadecimal digits of a number, in lower case. -/
def hexDigits (n : Nat) : Text :=
  Nat.toDigits 16 n

/-- A code point between braces. -/
def codePoint (c : Char) : Text :=
  ['\\', 'u', '\x7b'] ++ hexDigits c.toNat ++ ['\x7d']

/-- A character as it stands in a literal. -/
def literalChar (c : Char) : Text :=
  if c = '\x00' then ['\\', '0']
  else if c = '\t' then ['\\', 't']
  else if c = '\r' then ['\\', 'r']
  else if c = '\n' then ['\\', 'n']
  else if c = '\\' ∨ c = '"' then ['\\', c]
  else if isVisible c then [c]
  else codePoint c

/-- The literal of a text. -/
def literal (s : Text) : Text :=
  '"' :: s.flatMap literalChar ++ ['"']

end Formdoc.Text
