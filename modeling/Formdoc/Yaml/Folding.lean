/-
The text of scalars that may run over several lines.

Between two words of a scalar there is a `Gap`.  Blanks within a line stand for
themselves.  Where the scalar goes on in another line, the blanks around the
line break fall away and the break itself becomes a blank, unless empty lines
follow it: then it vanishes, and every empty line gives a line feed.

* `plain?` reads a scalar without quotation marks.  It ends where a mark, a
  comment, a key or a line too far to the left begins.
* `quoted?` reads a scalar up to its closing quotation mark.
-/
import Formdoc.Text.CodePoint
import Formdoc.Yaml.Spot

namespace Formdoc.Yaml

/-- What lies between two words of a scalar: blanks, or line breaks, of which the first may have
been struck out by a backslash in front of it. -/
inductive Gap where
  | blanks (s : Text)
  | breaks (first : Option Char) (further : Text)
deriving DecidableEq, Repr

namespace Gap

/-- There is no gap. -/
def empty : Gap := blanks []

/-- The gap has something in it. -/
def isOpen : Gap → Bool
  | blanks s => !s.isEmpty
  | breaks _ _ => true

/-- The gap runs over the end of a line. -/
def isBroken : Gap → Bool
  | blanks _ => false
  | breaks _ _ => true

/-- The gap with one more blank, which counts only in front of a line break. -/
def addBlank (c : Char) : Gap → Gap
  | blanks s => blanks (s ++ [c])
  | breaks first further => breaks first further

/-- The gap with one more line break. -/
def addBreak (c : Char) : Gap → Gap
  | blanks _ => breaks (some c) []
  | breaks first further => breaks first (further ++ [c])

/-- The text that a gap stands for. A separator of Unicode is kept where a line feed is folded. -/
def text : Gap → Text
  | blanks s => s
  | breaks (some '\n') [] => [' ']
  | breaks (some '\n') further => further
  | breaks first further => first.toList ++ further

example : (((empty.addBlank ' ').addBreak '\n').addBlank '\t').text = [' '] := rfl

example : (((empty.addBreak '\n').addBreak '\n').addBreak '\n').text = ['\n', '\n'] := rfl

end Gap

/-- The marks of flow collections, which end a plain scalar there. -/
def flowMarks : List Char := [',', '[', ']', '\x7b', '\x7d']

/-- The characters with which no plain scalar starts. -/
def indicators : List Char :=
  ['-', '?', ':', ',', '[', ']', '\x7b', '\x7d', '#', '&', '*', '!', '|', '>', '\'', '"', '%', '@',
    '\x60']

/-- A plain scalar can start here. A dash may start one in front of anything but a blank, a question
mark and a colon only in a block and within a word. -/
def startsPlain (inFlow : Bool) : List Spot → Bool
  | [] => false
  | p :: ps =>
    (!indicators.contains p.char && !endsWord (p :: ps)) ||
      (p.char == '-' && !startsWith [' ', '\t'] ps) ||
      (!inFlow && (p.char == '?' || p.char == ':') && !endsWord ps)

/-- The rest of a plain scalar: its text, whether a line has ended behind its last word, and what
follows. `text` is what has been read, in reverse, and `gap` the gap behind it. Further lines must
not start left of column `least`, except in a flow collection, and there must be no tab left of it.
In a flow collection a colon must not stand directly in front of a mark. -/
def plain? (inFlow : Bool) (least : Nat) (text : Text) (gap : Gap) :
    List Spot → Option (Text × Bool × List Spot)
  | [] => some (text.reverse, gap.isBroken, [])
  | p :: ps =>
    if Text.isInlineBlank p.char then
      if gap.isBroken && p.char == '\t' && decide (p.column < least) then none
      else plain? inFlow least text (gap.addBlank p.char) ps
    else if endsLine p.char then plain? inFlow least text (gap.addBreak p.char) ps
    else if (gap.isOpen && p.char == '#') ||
        (gap.isBroken && (isDocumentMark (p :: ps) || (!inFlow && decide (p.column < least)))) then
      some (text.reverse, gap.isBroken, p :: ps)
    else if inFlow && p.char == ':' && startsWith ('?' :: flowMarks) ps then none
    else if (p.char == ':' && endsWord ps) || (inFlow && flowMarks.contains p.char) then
      some (text.reverse, gap.isBroken, p :: ps)
    else plain? inFlow least (p.char :: (gap.text.reverse ++ text)) Gap.empty ps

/-- What a character stands for behind a backslash in double quotation marks. -/
def escaped? : Char → Option Char
  | '0' => some '\x00'
  | 'a' => some '\x07'
  | 'b' => some '\x08'
  | 't' => some '\t'
  | '\t' => some '\t'
  | 'n' => some '\n'
  | 'v' => some '\x0b'
  | 'f' => some '\x0c'
  | 'r' => some '\r'
  | 'e' => some '\x1b'
  | ' ' => some ' '
  | '"' => some '"'
  | '/' => some '/'
  | '\\' => some '\\'
  | 'N' => some '\u0085'
  | '_' => some '\u00a0'
  | 'L' => some '\u2028'
  | 'P' => some '\u2029'
  | _ => none

/-- The digits of a numeric escape behind its letter. -/
def escapeDigits? : Char → Option Nat
  | 'x' => some 2
  | 'u' => some 4
  | 'U' => some 8
  | _ => none

/-- The character that an escape stands for, from behind its backslash on, and what follows. -/
def escape? : List Spot → Option (Char × List Spot)
  | [] => none
  | p :: ps =>
    match escapeDigits? p.char with
    | some count => do
      let (n, _) ← Text.hexPrefix? count (ps.map Spot.char)
      (Text.charOf? n).map (·, ps.drop count)
    | none => (escaped? p.char).map (·, ps)

/-- The rest of a scalar in the quotation marks `q`, and what follows the closing one. `text` is
what has been read, in reverse, and `gap` the gap behind it. No mark of a document must stand
inside. -/
def quoted? (q : Char) : Nat → (text : Text) → (gap : Gap) → List Spot → Option (Text × List Spot)
  | 0, _, _, _ => none
  | _, _, _, [] => none
  | fuel + 1, text, gap, p :: ps =>
    if Text.isInlineBlank p.char then quoted? q fuel text (gap.addBlank p.char) ps
    else if endsLine p.char then quoted? q fuel text (gap.addBreak p.char) ps
    else if isDocumentMark (p :: ps) then none
    else
      let text := gap.text.reverse ++ text
      if p.char = q then
        if q == '\'' && startsWith ['\''] ps then
          quoted? q fuel ('\'' :: text) Gap.empty (ps.drop 1)
        else some (text.reverse, ps)
      else if p.char = '\\' ∧ q = '"' then
        if ps.head?.any (endsLine ·.char) then
          quoted? q fuel text (Gap.breaks none []) (ps.drop 1)
        else do
          let (c, ps) ← escape? ps
          quoted? q fuel (c :: text) Gap.empty ps
      else quoted? q fuel (p.char :: text) Gap.empty ps

end Formdoc.Yaml
