/-
The list of a palette's tabs, as its file states it.

The file is a record with the field `palette`, a list of tabs.  A tab is a
record with a name, a description that may be missing, and a list of the paths
of component manifests.
-/
import Formdoc.Yaml.Reader

namespace Formdoc

/-- A tab with the paths of its manifests. -/
structure TabSource where
  name : Text
  description : Option Text
  paths : List Text
deriving DecidableEq, Repr

namespace TabSource

/-- The field of a palette's tabs. -/
def paletteField : Text := "palette".toList

/-- The field of a tab's name. -/
def nameField : Text := "tab".toList

/-- The field of a tab's description. -/
def descriptionField : Text := "description".toList

/-- The field of a tab's manifests. -/
def pathsField : Text := "components".toList

/-- A text that may be missing. -/
def optionalText? : Option Yaml → Option (Option Text)
  | none => some none
  | some v => if v.isNull then some none else (v.text?).map some

/-- A list that may be missing. -/
def optionalItems? : Option Yaml → Option (List Yaml)
  | none => some []
  | some v => v.items?

/-- The tab that a value states. -/
def ofYaml? (v : Yaml) : Option TabSource := do
  let fields ← v.record? [nameField, descriptionField, pathsField]
  let name ← (← fields.lookup nameField).text?
  let description ← optionalText? (fields.lookup descriptionField)
  let paths ← (← optionalItems? (fields.lookup pathsField)).mapM Yaml.text?
  some ⟨name, description, paths⟩

/-- The tabs that the text of a palette's file states. -/
def read? (content : Text) : Option (List TabSource) := do
  let v ← Yaml.read? content
  let fields ← v.record? [paletteField]
  (← optionalItems? (fields.lookup paletteField)).mapM ofYaml?

end TabSource

end Formdoc
