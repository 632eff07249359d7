/-
Documents: reading and writing as a whole.

A document is its metadata, the blocks of its body and the values of its
fields.  Reading never fails: what is wrong is reported, first what concerns
the regions, then what concerns the body.  `Reading.result` refuses a document
with errors.
-/
import Formdoc.Body.Printer
import Formdoc.Body.Reader
import Formdoc.Document.Regions

namespace Formdoc

/-- A document. -/
structure Document where
  metadata : Metadata
  body : List Block
  data : Data

/-- What reading a document gives. -/
structure Reading where
  document : Document
  diagnostics : List Diagnostic

namespace Document

/-- The document that a text denotes, and what is to be said about it. -/
def read (source : Text) : Reading :=
  let regions := Regions.read source
  let (blocks, errors) := Body.read regions.body
  ⟨⟨regions.metadata, blocks, regions.data⟩, regions.diagnostics ++ errors⟩

/-- The text of a document: the metadata block, the body, and the data section, which an empty
line separates from the body. -/
def write (d : Document) : Text :=
  let body := Body.write d.body
  let dataText := Data.write d.data
  Metadata.write d.metadata ++ (if body.isEmpty then [] else body ++ ['\n']) ++
    (if dataText.isEmpty || body.isEmpty then dataText else '\n' :: dataText)

end Document

namespace Reading

/-- The errors, without the warnings. -/
def errors (r : Reading) : List Diagnostic :=
  r.diagnostics.filter Diagnostic.isError

/-- The document, or the errors that stand against it. -/
def result (r : Reading) : Except (List Diagnostic) Document :=
  if r.errors.isEmpty then .ok r.document else .error r.errors

end Reading

/-- The message about a document with errors. -/
def refusal (errors : List Diagnostic) : Text :=
  "Document has ".toList ++ digitsOf errors.length ++ " error(s): ".toList ++
    "; ".toList.intercalate (errors.map Diagnostic.display)

end Formdoc
