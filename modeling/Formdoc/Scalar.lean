/-
Scalars: the values of metadata lines, and how plain text denotes a value.

A text denotes a number if it consists of digits, or of digits, a point and
digits; digits alone that go past the greatest signed 64-bit integer denote a
binary64 number.  `Scalar.read` reads a metadata value: it strips blanks, then
one pair of quotation marks, and looks for a number or a keyword in what
remains.  `Scalar.text` writes the value again; a binary64 number that is whole
keeps a fraction `.0`, so that it does not read back as an integer.
-/
import Formdoc.Number.Decimal

namespace Formdoc

-- A power of natural numbers is the one of core, whatever else is imported.
attribute [local instance (2000)] instPowNat

/-- The value of a metadata entry. -/
inductive Scalar where
  | text (s : Text)
  | int (n : Int)
  | float (x : Binary64)
  | bool (b : Bool)
deriving DecidableEq, Repr

/-- A number as it is written in a document. -/
inductive Numeral where
  | int (n : Nat)
  | float (x : Binary64)
deriving DecidableEq, Repr

/-- The greatest signed integer of 64 bits. -/
def maxInteger : Nat := 2 ^ (63 : Nat) - 1

/-- A row of digits: at least one, and nothing else. -/
def isDigits (s : Text) : Bool :=
  !s.isEmpty && s.all Char.isDigit

namespace Numeral

/-- The number that a text denotes: digits, or digits, a point and digits. -/
def read? (s : Text) : Option Numeral :=
  let whole := s.takeWhile Char.isDigit
  match s.dropWhile Char.isDigit with
  | [] =>
    if whole.isEmpty then none
    else if ofDigits whole ≤ maxInteger then some (int (ofDigits whole))
    else some (float (Binary64.ofDecimal false (ofDigits whole) 0))
  | '.' :: fraction =>
    if !whole.isEmpty && isDigits fraction then
      some (float (Binary64.ofDecimal false (ofDigits (whole ++ fraction))
        (-(fraction.length : Int))))
    else none
  | _ => none

end Numeral

/-- The text without the pair of quotation marks around it, if they match. -/
def unquote (s : Text) : Text :=
  match s with
  | q :: c :: r =>
    if (q = '"' ∨ q = '\'') ∧ (c :: r).getLast? = some q then (c :: r).dropLast else s
  | s => s

namespace Binary64

/-- The sign of a number and its whole magnitude, if it has one. -/
def signedWhole? : Binary64 → Option (Bool × Nat)
  | finite n r => (whole? r).map fun w => (n, w)
  | _ => none

/-- A number that reads back as a binary64 number: a whole one is written in full, with `.0`. -/
def markedText (x : Binary64) : Text :=
  match x.signedWhole? with
  | some (n, w) => (if n then ['-'] else []) ++ digitsOf w ++ ".0".toList
  | none => x.plainText

/-- Whole numbers of at least this magnitude are not written as integers. -/
def integerLimit : Nat := 10 ^ (15 : Nat)

/-- A number as one would write it by hand: a whole one below the limit as an integer. The
negative zero is then zero. -/
def briefText (x : Binary64) : Text :=
  match x.signedWhole? with
  | some (n, w) =>
    if w < integerLimit then integerText (if n then -(w : Int) else w) else x.plainText
  | none => x.plainText

end Binary64

namespace Scalar

/-- The truth value that a text is the keyword of. -/
def keyword? (s : Text) : Option Bool :=
  if s = ['t', 'r', 'u', 'e'] then some true
  else if s = ['f', 'a', 'l', 's', 'e'] then some false
  else none

/-- The value that a number stands for. -/
def ofNumeral : Numeral → Scalar
  | .int n => int n
  | .float x => float x

/-- The value of a metadata entry. Quotation marks do not make a number or a keyword a text. -/
def read (raw : Text) : Scalar :=
  let s := unquote (Text.trim raw)
  match Numeral.read? s with
  | some n => ofNumeral n
  | none =>
    match keyword? s with
    | some b => bool b
    | none => text s

/-- The text of a value. -/
def display : Scalar → Text
  | text s => s
  | int n => integerText n
  | float x => x.markedText
  | bool b => if b then ['t', 'r', 'u', 'e'] else ['f', 'a', 'l', 's', 'e']

/-- The two values are the same data. -/
def agrees : Scalar → Scalar → Bool
  | text a, text b => a == b
  | int a, int b => a == b
  | float a, float b => a.agrees b
  | bool a, bool b => a == b
  | _, _ => false

end Scalar

end Formdoc
