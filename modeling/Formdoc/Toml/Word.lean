/-
The TOML values that are written as one word: numbers, truth values and dates.

Digits may be grouped by single underscores.  Whole numbers fit in 64 bits,
signed.  A float that is too big is an error unless it is negative.  Dates are
dates of the calendar, and a time may have a leap second.
-/
import Formdoc.Scalar
import Formdoc.Text.CodePoint
import Formdoc.Text.Lines
import Formdoc.Toml.Value

namespace Formdoc.Toml

/-! ### Numbers -/

/-- The digits of a row in which single underscores may stand between digits. -/
def ungroup? (isDigit : Char → Bool) (s : Text) : Option Text :=
  let groups := Text.split '_' s
  if groups.all fun g => !g.isEmpty && g.all isDigit then some groups.flatten else none

/-- The sign of a number, negative or not, and what follows it. -/
def spanSign : Text → Bool × Text
  | '-' :: s => (true, s)
  | '+' :: s => (false, s)
  | s => (false, s)

/-- The digits of a whole decimal number, which has no leading zeros. -/
def decimalDigits? (s : Text) : Option Text :=
  match s with
  | '0' :: _ :: _ => none
  | s => ungroup? Char.isDigit s

/-- The number fits in 64 bits, signed. -/
def fitting? (n : Int) : Option Int :=
  if -(maxInteger : Int) ≤ n + 1 ∧ n ≤ maxInteger then some n else none

/-- A whole number to a base that is a power of two, whose digits are hexadecimal digits. -/
def based? (base : Nat) (s : Text) : Option Int := do
  let ds ← ungroup? (fun c => (Text.hexValue? c).any (· < base)) s
  fitting? (ds.foldl (fun n c => base * n + (Text.hexValue? c).getD 0) 0 : Nat)

/-- The whole number that a word is. -/
def integer? : Text → Option Int
  | '0' :: 'x' :: s => based? 16 s
  | '0' :: 'o' :: s => based? 8 s
  | '0' :: 'b' :: s => based? 2 s
  | s => do
    let (negative, s) := spanSign s
    let n := ofDigits (← decimalDigits? s)
    fitting? (if negative then -(n : Int) else n)

/-- The number `digits * 10 ^ exponent` is too big for binary64. -/
def overflows (digits : Nat) (exponent : Int) : Bool :=
  let lead := (digitsOf digits).length + exponent
  digits != 0 && decide (0 ≤ lead) &&
    (decide (310 < lead) || decide (rankCount ≤ Binary64.decimalRank digits exponent))

/-- The exponent that a text is behind its mark. -/
def exponent? (s : Text) : Option Int := do
  let (negative, s) := spanSign s
  let n := ofDigits (← ungroup? Char.isDigit s)
  some (if negative then -(n : Int) else n)

/-- The mark of an exponent. -/
def isExponentMark (c : Char) : Bool :=
  c == 'e' || c == 'E'

/-- The digits behind the point and the exponent of a float, as far as they are there, which is
at least one of them. -/
def fractionAndExponent? : Text → Option (Text × Int)
  | [] => none
  | '.' :: s =>
    let fraction := s.takeWhile (!isExponentMark ·)
    match s.dropWhile (!isExponentMark ·) with
    | [] => (ungroup? Char.isDigit fraction).map (·, 0)
    | _ :: s => do some (← ungroup? Char.isDigit fraction, ← exponent? s)
  | c :: s => if isExponentMark c then (exponent? s).map ([], ·) else none

/-- The word is a float. -/
def isFloat (s : Text) : Bool :=
  let (negative, s) := spanSign s
  if s = "inf".toList ∨ s = "nan".toList then true
  else
    let inWhole (c : Char) : Bool := c.isDigit || c == '_'
    match decimalDigits? (s.takeWhile inWhole), fractionAndExponent? (s.dropWhile inWhole) with
    | some whole, some (fraction, exponent) =>
      negative || !overflows (ofDigits (whole ++ fraction)) (exponent - fraction.length)
    | _, _ => false

/-! ### Dates and times -/

/-- Two digits that denote a number within limits. -/
def isTwoDigits (least greatest : Nat) (a b : Char) : Bool :=
  let n := ofDigits [a, b]
  a.isDigit && b.isDigit && decide (least ≤ n) && decide (n ≤ greatest)

/-- The number of days of a month. -/
def daysOf (year month : Nat) : Nat :=
  if month = 2 then
    if year % 4 = 0 ∧ (year % 100 ≠ 0 ∨ year % 400 = 0) then 29 else 28
  else if month = 4 ∨ month = 6 ∨ month = 9 ∨ month = 11 then 30
  else 31

/-- What follows a date at the front of a word. -/
def afterDate? : Text → Option Text
  | y :: y' :: y'' :: y''' :: '-' :: m :: m' :: '-' :: d :: d' :: s =>
    let year := [y, y', y'', y''']
    if year.all Char.isDigit && isTwoDigits 1 12 m m' &&
        isTwoDigits 1 (daysOf (ofDigits year) (ofDigits [m, m'])) d d' then some s
    else none
  | _ => none

/-- What follows a time of the day at the front of a word. -/
def afterTime? : Text → Option Text
  | h :: h' :: ':' :: m :: m' :: ':' :: s :: s' :: r =>
    if isTwoDigits 0 23 h h' && isTwoDigits 0 59 m m' && isTwoDigits 0 60 s s' then
      match r with
      | '.' :: d :: r => if d.isDigit then some (r.dropWhile Char.isDigit) else none
      | r => some r
    else none
  | _ => none

/-- The text is the distance from universal time, or nothing. -/
def isOffset : Text → Bool
  | [] => true
  | ['Z'] => true
  | ['z'] => true
  | [sign, h, h', ':', m, m'] =>
    (sign == '+' || sign == '-') && isTwoDigits 0 23 h h' && isTwoDigits 0 59 m m'
  | _ => false

/-- The text is a time of the day, with or without an offset. -/
def isDayTime (s : Text) : Bool :=
  (afterTime? s).any isOffset

/-- The word is a date, a time, or both. -/
def isMoment (s : Text) : Bool :=
  match afterDate? s with
  | some [] => true
  | some (c :: s) => (c == 'T' || c == 't') && isDayTime s
  | none => (afterTime? s).any List.isEmpty

/-! ### Words -/

/-- The value that a word is. -/
def word? (s : Text) : Option Toml :=
  if s = "true".toList then some (bool true)
  else if s = "false".toList then some (bool false)
  else if isMoment s then some (moment s)
  else if isFloat s then some (float s)
  else (integer? s).map integer

/-- A character of words. -/
def isWordPart (c : Char) : Bool :=
  c.isAlphanum || ['+', '-', '_', '.', ':'].contains c

/-- The value at the front of a text that is a word, and the rest. A date and a time may be two
words. -/
def spanWord? (s : Text) : Option (Toml × Text) :=
  let w := s.takeWhile isWordPart
  let r := s.dropWhile isWordPart
  match afterDate? w, r with
  | some [], ' ' :: r' =>
    let time := r'.takeWhile isWordPart
    if isDayTime time then some (moment (w ++ ' ' :: time), r'.dropWhile isWordPart)
    else some (moment w, r)
  | _, _ => (word? w).map (·, r)

end Formdoc.Toml
