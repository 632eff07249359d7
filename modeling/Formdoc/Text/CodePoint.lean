/-
Characters by the hexadecimal digits of their code points.
-/
import Formdoc.Text.Blank

namespace Formdoc.Text

/-- The value of a hexadecimal digit. -/
def hexValue? (c : Char) : Option Nat :=
  if c.isDigit then some (c.toNat - '0'.toNat)
  else if 'a' ≤ c ∧ c ≤ 'f' then some (c.toNat - 'a'.toNat + 10)
  else if 'A' ≤ c ∧ c ≤ 'F' then some (c.toNat - 'A'.toNat + 10)
  else none

/-- The number that hexadecimal digits denote. -/
def hexNumber? (ds : Text) : Option Nat :=
  ds.foldlM (fun n c => (hexValue? c).map (16 * n + ·)) 0

/-- The character of a code point. A half of a pair is none, nor is a number past the last. -/
def charOf? (n : Nat) : Option Char :=
  if n.isValidChar then some (Char.ofNat n) else none

/-- The number that the first `count` characters of a text denote as hexadecimal digits, and what
follows them. -/
def hexPrefix? (count : Nat) (s : Text) : Option (Nat × Text) :=
  let ds := s.take count
  if ds.length = count then (hexNumber? ds).map (·, s.drop count) else none

end Formdoc.Text
