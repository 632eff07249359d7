/-
The characters of a YAML text and their places.

YAML goes by columns: they tell which entries belong together and how far a
scalar runs.  `spots` gives every character its line, its column and its
distance from the front, so that what reads the text is a recursion on a list
and still knows where it stands.  Line breaks are unified first: a line feed, a
carriage return, both together and the next-line character are one line feed.
The two separators of Unicode end a line as well, and stay what they are.
-/
import Formdoc.Text.Blank

namespace Formdoc.Yaml

/-- A character of a text with its line, its column and the bytes in front of it, all counted from
zero. -/
structure Spot where
  char : Char
  line : Nat
  column : Nat
  offset : Nat
deriving DecidableEq, Repr

/-- The text with one character for every line break. -/
def unifyBreaks : Text → Text
  | [] => []
  | '\r' :: '\n' :: s => '\n' :: unifyBreaks s
  | c :: s => (if c = '\r' ∨ c = '\u0085' then '\n' else c) :: unifyBreaks s

/-- The character ends a line: a line feed, the line separator or the paragraph separator. -/
def endsLine (c : Char) : Bool :=
  c == '\n' || c == '\u2028' || c == '\u2029'

/-- The characters of a text whose first one stands at the given place. -/
def spotsFrom (line column offset : Nat) : Text → List Spot
  | [] => []
  | c :: s =>
    ⟨c, line, column, offset⟩ ::
      if endsLine c then spotsFrom (line + 1) 0 (offset + c.utf8Size) s
      else spotsFrom line (column + 1) (offset + c.utf8Size) s

/-- The characters of a text. A byte order mark at the front is left out, and takes up a column. -/
def spots (s : Text) : List Spot :=
  match spotsFrom 0 0 0 (unifyBreaks s) with
  | p :: ps => if p.char = '\ufeff' then ps else p :: ps
  | [] => []

/-- A YAML text may hold tabs, line breaks and what is not a control character. -/
def isPrintable (c : Char) : Bool :=
  [0x09, 0x0A, 0x0D, 0x85].contains c.toNat ||
    [(0x20, 0x7E), (0xA0, 0xD7FF), (0xE000, 0xFFFD), (0x10000, 0x10FFFF)].any fun r =>
      decide (r.1 ≤ c.toNat) && decide (c.toNat ≤ r.2)

/-- Nothing of a word follows: the text ends here, or a blank or the end of the line stands here. -/
def endsWord : List Spot → Bool
  | [] => true
  | p :: _ => Text.isInlineBlank p.char || endsLine p.char

/-- One of the given characters follows. -/
def startsWith (cs : List Char) : List Spot → Bool
  | [] => false
  | p :: _ => cs.contains p.char

/-- A mark of three equal characters stands at the front of a line, and ends a word. -/
def isMark (c : Char) : List Spot → Bool
  | p :: q :: r :: ps =>
    p.column == 0 && [p, q, r].all (fun x => x.char == c) && endsWord ps
  | _ => false

/-- The mark at the start or at the end of a document stands here. -/
def isDocumentMark (ps : List Spot) : Bool :=
  isMark '-' ps || isMark '.' ps

end Formdoc.Yaml
