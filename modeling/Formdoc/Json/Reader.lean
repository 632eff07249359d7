/-
Reading JSON text.

`Json.read?` accepts exactly one value with blanks around it.  Values may be
nested to a depth of 127.  Of the fields of one name the first gives the place
and the last the value.  A unit of two bytes that is no character must be half
of a pair.

Numbers without fraction and exponent are whole if they fit in 64 bits, signed
or not.  All others are binary64 numbers, read as a significand of at most 64
bits times a power of ten (`Json.decimal?`): the digits that do not fit are
dropped, and the significand is scaled by one rounded product or quotient.  So
the value is within a rounding or two of the exact one, not always the nearest.
A number too big for binary64 is an error.
-/
import Formdoc.Json.Value
import Formdoc.Text.CodePoint
import Formdoc.Text.Search

namespace Formdoc.Json

-- A power of natural numbers is the one of core, whatever else is imported.
attribute [local instance (2000)] instPowNat

/-! ### Numbers -/

/-- One more than the greatest significand. -/
def significandLimit : Nat := 2 ^ (64 : Nat)

/-- The digits appended to a significand as long as it fits, and the digits left over. -/
def absorb (significand : Nat) : Text → Nat × Text
  | [] => (significand, [])
  | c :: ds =>
    let n := 10 * significand + (c.toNat - '0'.toNat)
    if n < significandLimit then absorb n ds else (significand, c :: ds)

/-- A magnitude divided by a power of ten, in steps of at most `10 ^ 308`. -/
def scaleDown (rank : Nat) (places : Nat) : Nat :=
  if places ≤ 308 then Binary64.divRank rank (Binary64.decimalRank 1 places)
  else if rank = 0 then 0
  else scaleDown (Binary64.divRank rank (Binary64.decimalRank 1 308)) (places - 308)
termination_by places

/-- A significand times a power of ten, unless that is too big. -/
def scaled? (negative : Bool) (significand : Nat) (exponent : Int) : Option Binary64 :=
  let rank := Binary64.nearestRank (significand * Binary64.one) 1
  if exponent < 0 then some (Binary64.ofRank negative (scaleDown rank (-exponent).toNat))
  else if significand = 0 then some (Binary64.ofRank negative 0)
  else if 308 < exponent then none
  else
    let product := Binary64.mulRank rank (Binary64.decimalRank 1 exponent)
    if product < rankCount then some (Binary64.ofRank negative product) else none

/-- The number with the given digits before and after the point, and exponent. -/
def decimal? (negative : Bool) (whole fraction : Text) (exponent : Int) : Option Binary64 :=
  let (s, dropped) := absorb 0 whole
  let (t, unread) := absorb s fraction
  scaled? negative t (dropped.length - (fraction.length - unread.length : Nat) + exponent)

/-- A whole number that fits in 64 bits, signed or not. The negative zero does not. -/
def integer? (negative : Bool) (magnitude : Nat) : Option Int :=
  if negative then
    if 0 < magnitude ∧ magnitude ≤ 2 ^ (63 : Nat) then some (-(magnitude : Int)) else none
  else if magnitude < significandLimit then some magnitude else none

/-- Digits and what follows them. -/
def spanDigits (s : Text) : Text × Text :=
  (s.takeWhile Char.isDigit, s.dropWhile Char.isDigit)

/-- The fraction at the front of a text, if a point is there: digits, at least one. -/
def fraction? : Text → Option (Option Text × Text)
  | '.' :: s =>
    match spanDigits s with
    | ([], _) => none
    | (ds, r) => some (some ds, r)
  | s => some (none, s)

/-- The exponent at the front of a text, if its mark is there: a sign or none, and digits. -/
def exponent? : Text → Option (Option Int × Text)
  | [] => some (none, [])
  | c :: s =>
    if c = 'e' ∨ c = 'E' then
      let (negative, s) :=
        match s with
        | '-' :: s => (true, s)
        | '+' :: s => (false, s)
        | s => (false, s)
      match spanDigits s with
      | ([], _) => none
      | (ds, r) => some (some (if negative then -(ofDigits ds : Int) else ofDigits ds), r)
    else some (none, c :: s)

/-- The number at the front of a text, and the rest. -/
def number? (s : Text) : Option (Json × Text) := do
  let (negative, s) := match s with
    | '-' :: s => (true, s)
    | s => (false, s)
  let (whole, s) := spanDigits s
  match whole with
  | [] => none
  | '0' :: _ :: _ => none
  | _ =>
    let (fraction, s) ← fraction? s
    let (exponent, s) ← exponent? s
    match fraction, exponent, integer? negative (ofDigits whole) with
    | none, none, some n => some (int n, s)
    | _, _, _ =>
      let x ← decimal? negative whole (fraction.getD []) (exponent.getD 0)
      some (float x, s)

/-! ### Texts -/

/-- What a quoted text is made of: characters, and halves of pairs. -/
inductive Piece where
  | char (c : Char)
  | half (n : Nat)

/-- The piece that a unit of two bytes is. -/
def pieceOf (n : Nat) : Piece :=
  match Text.charOf? n with
  | some c => .char c
  | none => .half n

/-- The pieces up to the closing quotation mark, and the rest. -/
def pieces? : Text → Option (List Piece × Text)
  | [] => none
  | '"' :: s => some ([], s)
  | '\\' :: 'u' :: a :: b :: c :: d :: s => do
    let n ← Text.hexNumber? [a, b, c, d]
    let (ps, r) ← pieces? s
    some (pieceOf n :: ps, r)
  | '\\' :: c :: s => do
    let e ← match c with
      | '"' | '\\' | '/' => some c
      | 'b' => some '\x08'
      | 'f' => some '\x0c'
      | 'n' => some '\n'
      | 'r' => some '\r'
      | 't' => some '\t'
      | _ => none
    let (ps, r) ← pieces? s
    some (.char e :: ps, r)
  | c :: s => do
    if c.toNat < 32 ∨ c = '\\' then none
    else
      let (ps, r) ← pieces? s
      some (.char c :: ps, r)

/-- The character of a pair of halves. -/
def paired? (high low : Nat) : Option Char :=
  if high < 0xDC00 ∧ 0xDC00 ≤ low then
    Text.charOf? (0x10000 + (high - 0xD800) * 0x400 + (low - 0xDC00))
  else none

/-- The characters of the pieces, if every half has its partner. -/
def joinPieces? : List Piece → Option Text
  | [] => some []
  | .char c :: ps => (joinPieces? ps).map (c :: ·)
  | .half high :: .half low :: ps => do
    let c ← paired? high low
    (joinPieces? ps).map (c :: ·)
  | .half _ :: _ => none

/-- The text whose opening quotation mark has been read, and the rest. -/
def text? (s : Text) : Option (Text × Text) := do
  let (ps, r) ← pieces? s
  (joinPieces? ps).map (·, r)

/-! ### Values -/

/-- A blank between the parts of a value. -/
def isSpace (c : Char) : Bool :=
  c == ' ' || c == '\t' || c == '\n' || c == '\r'

/-- The text from the next part on. -/
def skip (s : Text) : Text :=
  s.dropWhile isSpace

/-- One element after another, with commas between them, up to the closing mark. `fuel` bounds
their number. -/
def sequence? {α : Type} (element? : Text → Option (α × Text)) (close : Char) :
    Nat → Text → Option (List α × Text)
  | 0, _ => none
  | fuel + 1, s => do
    let (a, s) ← element? (skip s)
    match skip s with
    | ',' :: s =>
      let (as, s) ← sequence? element? close fuel s
      some (a :: as, s)
    | c :: s => if c = close then some ([a], s) else none
    | [] => none

/-- The elements up to the closing mark, or none of them. -/
def elements? {α : Type} (element? : Text → Option (α × Text)) (close : Char) (s : Text) :
    Option (List α × Text) :=
  match skip s with
  | c :: r => if c = close then some ([], r) else sequence? element? close s.length s
  | [] => none

/-- A field: its name, a colon and its value. -/
def field? (value? : Text → Option (Json × Text)) : Text → Option ((Text × Json) × Text)
  | '"' :: s => do
    let (k, s) ← text? s
    match skip s with
    | ':' :: s =>
      let (v, s) ← value? (skip s)
      some ((k, v), s)
    | _ => none
  | _ => none

/-- The value at the front of a text, nested at most to the given depth, and the rest. -/
def value? : Nat → Text → Option (Json × Text)
  | depth, s =>
    match s with
    | '"' :: r => (text? r).map fun p => (.text p.1, p.2)
    | '[' :: r =>
      match depth with
      | 0 => none
      | depth + 1 => (elements? (value? depth) ']' r).map fun p => (.array p.1, p.2)
    | '\x7b' :: r =>
      match depth with
      | 0 => none
      | depth + 1 =>
        (elements? (field? (value? depth)) '\x7d' r).map fun p =>
          (.object (p.1.foldl (fun fs f => upsert f.1 f.2 fs) []), p.2)
    | s =>
      ((Text.after? "null".toList s).map (null, ·)) <|>
      ((Text.after? "true".toList s).map (bool true, ·)) <|>
      ((Text.after? "false".toList s).map (bool false, ·)) <|>
      number? s

/-- The greatest depth of nesting. -/
def depthLimit : Nat := 127

/-- The value that a text denotes, if it denotes one. -/
def read? (s : Text) : Option Json := do
  let (v, r) ← value? depthLimit (skip s)
  if (skip r).isEmpty then some v else none

end Formdoc.Json
