/-
Why a command fails.

A failure is told as a chain of messages, the first of which says what could
not be done and the last of which why.
-/
import Formdoc.Document.Edit
import Formdoc.Files.Check
import Formdoc.Palette.Load
import Formdoc.Settings

namespace Formdoc

/-- Why a command fails. -/
inductive Failure where
  | settings (cause : SettingsError)
  | unreadable (path : Text) (cause : FileError)
  | unwritable (path : Text) (cause : FileError)
  | errorsFound (count : Nat)
  | invalid (errors : List Diagnostic)
  | unformatted (path : Text)
  | refused (path : Text) (cause : EditError)
  | palette (cause : PaletteError)
  | unknownComponent (id : Text)
  | noDirectory (path : Text)

/-- The messages of what keeps settings from being had. -/
def SettingsError.chain : SettingsError → List Text
  | unreadable path cause => [unreadableMessage path, cause.message]
  | malformed path => ["Failed to parse ".toList ++ path]

/-- The messages of what keeps a palette from being loaded. -/
def PaletteError.chain (e : PaletteError) : List Text :=
  match e with
  | unreadable _ cause => [e.message, cause.message]
  | _ => [e.message]

namespace Failure

/-- The messages of a failure, from what failed to why. -/
def chain : Failure → List Text
  | settings cause => cause.chain
  | unreadable path cause => [unreadableMessage path, cause.message]
  | unwritable path cause => ["Failed to write ".toList ++ path, cause.message]
  | errorsFound count => [digitsOf count ++ " error(s) found".toList]
  | invalid errors => [refusal errors]
  | unformatted path => [path ++ " is not formatted".toList]
  | refused path cause => ["Refusing to update ".toList ++ path, cause.message]
  | palette cause => "Failed to load component registry".toList :: cause.chain
  | unknownComponent id => ["Unknown component: ".toList ++ id]
  | noDirectory path => ["Directory not found: ".toList ++ path]

end Failure

end Formdoc
