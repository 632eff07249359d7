/-
Diagnostics: what a reader has to say about a document.

A diagnostic is a warning or an error with a message, and the line and column
it concerns as far as they are known.  A column is shown only with its line.
-/
import Formdoc.Json.Value
import Formdoc.Text.Lines

namespace Formdoc

/-- How serious a diagnostic is. -/
inductive Severity where
  | warning
  | error
deriving DecidableEq, Repr

/-- The word for a severity. -/
def Severity.text : Severity → Text
  | warning => "warning".toList
  | error => "error".toList

/-- A message about a document. -/
structure Diagnostic where
  severity : Severity
  message : Text
  line : Option Nat
  column : Option Nat
deriving DecidableEq, Repr

namespace Diagnostic

/-- An error at a known place. -/
def errorAt (message : Text) (p : Position) : Diagnostic :=
  ⟨.error, message, some p.line, some p.column⟩

/-- An error about a document as a whole. -/
def error (message : Text) : Diagnostic :=
  ⟨.error, message, none, none⟩

/-- A warning about a line. -/
def warningOn (message : Text) (line : Nat) : Diagnostic :=
  ⟨.warning, message, some line, none⟩

/-- A metadata line that is no entry. -/
def invalidMetadata (content : Text) (line : Nat) : Diagnostic :=
  warningOn ("Invalid metadata line: ".toList ++ content) line

/-- A data section that runs to the end of the document. -/
def unclosedData (line : Nat) : Diagnostic :=
  warningOn "Data section is missing its closing delimiter".toList line

/-- A component tag without a name. -/
def emptyTag (p : Position) : Diagnostic :=
  errorAt "Empty component reference".toList p

/-- The diagnostic is an error. -/
def isError (d : Diagnostic) : Bool :=
  d.severity == .error

/-- Where the diagnostic belongs, for a reader. -/
def place (d : Diagnostic) : Text :=
  match d.line, d.column with
  | none, _ => []
  | some l, none => " (line ".toList ++ digitsOf l ++ [')']
  | some l, some c => " (line ".toList ++ digitsOf l ++ ", column ".toList ++ digitsOf c ++ [')']

/-- The diagnostic on one line. -/
def display (d : Diagnostic) : Text :=
  d.severity.text ++ ": ".toList ++ d.message ++ d.place

/-- The diagnostic as JSON. What is not known is left out. -/
def toJson (d : Diagnostic) : Json :=
  let known (name : String) (n : Option Nat) : List (Text × Json) :=
    match n with
    | some n => [(name.toList, .int n)]
    | none => []
  .object ([("message".toList, .text d.message)] ++ known "line" d.line ++
    known "column" d.column ++ [("severity".toList, .text d.severity.text)])

end Diagnostic

end Formdoc
