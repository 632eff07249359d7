/-
Checking the documents in a tree of files.

A check of a file is what reading it as a document has to say.  A file that
cannot be read is one error, and does not keep the others from being checked.
-/
import Formdoc.Document.Basic
import Formdoc.Files.Tree

namespace Formdoc

/-- What is to be said about a file. -/
structure FileReport where
  path : Text
  diagnostics : List Diagnostic
deriving DecidableEq, Repr

namespace FileReport

/-- The number of errors. -/
def errorCount (r : FileReport) : Nat :=
  r.diagnostics.countP Diagnostic.isError

/-- The number of warnings. -/
def warningCount (r : FileReport) : Nat :=
  r.diagnostics.length - r.errorCount

/-- The sum of a count over some reports. -/
def total (count : FileReport → Nat) : List FileReport → Nat
  | [] => 0
  | r :: rs => count r + total count rs

end FileReport

/-- What is said of a file that cannot be read. -/
def unreadableMessage (path : Text) : Text :=
  "Failed to read ".toList ++ path

namespace FileTree

/-- What is to be said about the file at a path. -/
def check (t : FileTree) (path : Text) : FileReport :=
  match t.read path with
  | .ok source => ⟨path, (Document.read source).diagnostics⟩
  | .error e => ⟨path, [.error (unreadableMessage path ++ ": ".toList ++ e.message)]⟩

/-- What is to be said about the files at some paths, in their order. -/
def checkAll (t : FileTree) (paths : List Text) : List FileReport :=
  paths.map t.check

end FileTree

end Formdoc
