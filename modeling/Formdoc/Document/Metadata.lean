/-
Metadata: the entries at the head of a document.

The metadata block is read line by line.  A silent line (blank, or a comment)
says nothing; a line `key: value` is an entry; any other line is reported with
its number.  The value under a key is that of the last entry for it, in the
place of the first.

Writing puts an entry on a line.  A text with a colon or a number sign in it
stands between quotation marks.
-/
import Formdoc.Diagnostic
import Formdoc.OrderedMap
import Formdoc.Scalar
import Formdoc.Text.Entry

namespace Formdoc

/-- The entries at the head of a document, in order. -/
abbrev Metadata := OrderedMap Text Scalar

/-- The line that fences a region of a document. -/
def fence : Text := ['-', '-', '-']

namespace Metadata

/-- What a line of a metadata block is. -/
inductive LineKind where
  | silent
  | entry (key : Text) (value : Scalar)
  | invalid
deriving DecidableEq, Repr

/-- What a line of a metadata block is. -/
def kind (line : Text) : LineKind :=
  if Text.isSilent line then .silent
  else
    match Text.keyedValue? line with
    | some (key, raw) => .entry key (Scalar.read raw)
    | none => .invalid

/-- The lines of a block, numbered from the given number on. -/
def numbered (block : Text) (first : Nat) : List (Text × Nat) :=
  ((Text.lines block).map Text.dropReturn).zipIdx first

/-- The entry that a line is, if it is one. -/
def entry? (line : Text) : Option (Text × Scalar) :=
  match kind line with
  | .entry key value => some (key, value)
  | _ => none

/-- The warning about a line, if it is invalid. -/
def warning? (line : Text) (number : Nat) : Option Diagnostic :=
  match kind line with
  | .invalid => some (.invalidMetadata line number)
  | _ => none

/-- The entries of a block, and the warnings about it. Its lines are numbered from `first` on. -/
def read (block : Text) (first : Nat) : Metadata × List Diagnostic :=
  let ls := numbered block first
  (.ofList (ls.filterMap fun l => entry? l.1), ls.filterMap fun l => warning? l.1 l.2)

/-- A text that needs quotation marks around it. -/
def needsQuotes (s : Text) : Bool :=
  s.contains ':' || s.contains '#'

/-- The value of an entry as it is written. -/
def valueText (v : Scalar) : Text :=
  match v with
  | .text s => if needsQuotes s then '"' :: s ++ ['"'] else s
  | v => v.display

/-- An entry on its line. -/
def entryText (e : Text × Scalar) : Text :=
  e.1 ++ ':' :: ' ' :: valueText e.2 ++ ['\n']

/-- The metadata block. Without entries there is none. -/
def write (m : Metadata) : Text :=
  if m.isEmpty then []
  else fence ++ '\n' :: m.entries.flatMap entryText ++ fence ++ ['\n']

end Metadata

end Formdoc
