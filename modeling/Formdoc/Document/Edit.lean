/-
Changes to a document's text.

`setField?` sets the value of a field and writes the whole document anew.  It
refuses a document that this would damage: one with a tag that runs to the end
of the body, one with errors, and one without metadata, behind which no data
section would be found.  `insertText` puts text at the end of the body and
leaves all else as it is.
-/
import Formdoc.Document.Basic

namespace Formdoc

/-- Why a document is not changed. -/
inductive EditError where
  | invalid (errors : List Diagnostic)
  | unterminated (tag : Position)
  | missingMetadata
deriving DecidableEq, Repr

/-- The wording of a refusal. -/
def EditError.message : EditError → Text
  | invalid errors => refusal errors
  | unterminated p =>
    "Unterminated component tag at line ".toList ++ digitsOf p.line ++ ", column ".toList ++
      digitsOf p.column
  | missingMetadata =>
    "Document has no metadata block, so a data section would not be read back".toList

namespace Document

/-- The place of a tag that runs to the end of a body. -/
def unterminatedTag? (body : Text) : Option Position :=
  ((locatedTokens body).find? fun t => t.value.isUnterminated).map Located.position

/-- The text with the given value in the field of the given name. -/
def setField? (source name : Text) (value : Json) : Except EditError Text :=
  match unterminatedTag? (Regions.read source).body with
  | some p => .error (.unterminated p)
  | none =>
    match (read source).result with
    | .error errors => .error (.invalid errors)
    | .ok d =>
      if d.metadata.isEmpty then .error .missingMetadata
      else .ok (write { d with data := d.data.insert name value })

/-- The text in the form in which it is written. -/
def format? (source : Text) : Except EditError Text :=
  match (read source).result with
  | .error errors => .error (.invalid errors)
  | .ok d => .ok (write d)

/-- A data section starts here: a line feed, a fence on its line, and the marker. -/
def dataLine? (s : Text) : Option Unit := do
  let s ← Text.after? ('\n' :: fence) s
  let s := (Text.after? ['\r'] s).getD s
  let s ← Text.after? ['\n'] s
  (Text.after? Data.marker s).map fun _ => ()

/-- The text with an addition at the end of the body: before the data section, or at the end. -/
def insertText (source addition : Text) : Text :=
  match Regions.firstCut dataLine? source with
  | some (before, _) =>
    before ++ ['\n', '\n'] ++ addition ++ '\n' :: source.drop before.length
  | none => Text.trimEnd source ++ ['\n', '\n'] ++ addition ++ ['\n']

end Document

end Formdoc
