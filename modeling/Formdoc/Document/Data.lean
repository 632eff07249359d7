/-
The data section: the values of a form's fields.

A data section opens with a fence and a line that starts with `data:`, and ends
with a fence.  Its lines are read one by one: two blanks, a key, a colon and a
value are an entry, and all other lines say nothing.  The value under a key is
that of the last entry for it, in the place of the first.
-/
import Formdoc.Document.Metadata
import Formdoc.Field

namespace Formdoc

/-- The values of a form's fields, in order. -/
abbrev Data := OrderedMap Text Json

namespace Data

/-- The word that marks a data section. -/
def marker : Text := ['d', 'a', 't', 'a', ':']

/-- The entry that a line is, if it is one. -/
def entry? (line : Text) : Option (Text × Json) :=
  if Text.isSilent line then none
  else
    match line with
    | a :: b :: r =>
      if Text.isBlank a && Text.isBlank b then (Text.keyed? r).map fun e => (e.1, Field.read e.2)
      else none
    | _ => none

/-- The entries of a data section. -/
def read (content : Text) : Data :=
  .ofList (((Text.lines content).map Text.dropReturn).filterMap entry?)

/-- An entry on its line. -/
def entryText (e : Text × Json) : Text :=
  ' ' :: ' ' :: e.1 ++ ':' :: ' ' :: Field.write e.2 ++ ['\n']

/-- The data section. Without entries there is none. -/
def write (d : Data) : Text :=
  if d.isEmpty then []
  else fence ++ '\n' :: marker ++ '\n' :: d.entries.flatMap entryText ++ fence ++ ['\n']

end Data

end Formdoc
