/-
Component manifests: what the palette knows of a component.

A manifest is a text of lines `key: value`.  Silent lines, lines of other forms
and keys that are not known count for nothing, and of several lines for one key
the last counts.  A value is stripped of blanks and of one pair of quotation
marks.  The id, the label and the template must be there, and are missed in
this order.
-/
import Formdoc.OrderedMap
import Formdoc.Palette.Escape
import Formdoc.Scalar
import Formdoc.Text.Entry

namespace Formdoc

/-- A component of the palette. -/
structure Manifest where
  id : Text
  label : Text
  icon : Option Text
  template : Text
  description : Option Text
deriving DecidableEq, Repr

/-- A field that a manifest must have. -/
inductive RequiredField where
  | id
  | label
  | template
deriving DecidableEq, Repr

namespace RequiredField

/-- The key of a field. -/
def key : RequiredField → Text
  | id => "id".toList
  | label => "label".toList
  | template => "template".toList

/-- What is said when the field is missing. -/
def message (f : RequiredField) : Text :=
  "Component manifest missing \"".toList ++ f.key ++ "\" field".toList

end RequiredField

namespace Manifest

/-- The key of icons, whose escapes are decoded. -/
def iconKey : Text := "icon".toList

/-- The key of descriptions. -/
def descriptionKey : Text := "description".toList

/-- The lines of a text, without the line feeds that end them and a carriage return before one. -/
def linesOf (s : Text) : List Text :=
  (Text.pieces s).map fun p =>
    if p.getLast? = some '\n' then Text.dropReturn p.dropLast else p

/-- The entry that a line is, if it is one. -/
def entry? (line : Text) : Option (Text × Text) :=
  if Text.isSilent line then none
  else
    (Text.keyedValue? line).map fun e =>
      let value := unquote (Text.trim e.2)
      (e.1, if e.1 = iconKey then Icon.decode value else value)

/-- The values of a manifest's lines by their keys. -/
def fields (content : Text) : OrderedMap Text Text :=
  .ofList ((linesOf content).filterMap entry?)

/-- The value of a field that must be there. -/
def required (fs : OrderedMap Text Text) (f : RequiredField) : Except RequiredField Text :=
  match fs.get? f.key with
  | some v => .ok v
  | none => .error f

/-- The manifest that a text denotes, or the first field that is missing. -/
def read (content : Text) : Except RequiredField Manifest := do
  let fs := fields content
  let id ← required fs .id
  let label ← required fs .label
  let template ← required fs .template
  return ⟨id, label, fs.get? iconKey, template, fs.get? descriptionKey⟩

end Manifest

end Formdoc
