/-
The regions of a document: metadata, body and data section.

A document has front matter if it starts with a fence, followed by blanks that
end in a line break, a block, line breaks, a fence, and again blanks that end
in a line break.  Where there are several ways to see it so, the first run of
blanks is as long as possible, then the block as short as possible, then the
last run of blanks as long as possible.  Without front matter the whole text is
body.

Behind front matter a data section opens with a fence, line breaks and the
word `data:`.  The fence stands behind line breaks, and the first such place
counts; only if there is none, a fence at the very front opens the section.
The section's content runs to a closing fence with nothing but blanks behind
it, and without one to the end of the text.
-/
import Formdoc.Document.Data
import Formdoc.Text.Search

namespace Formdoc

/-- The front matter's block and the text behind it, and the text up to the block's first line. -/
structure FrontMatter where
  opening : Text
  block : Text
  rest : Text
deriving DecidableEq, Repr

/-- A data section's content, the body text before the section, and whether the section is
closed. The content starts directly behind the marker in `tail`. -/
structure DataSection where
  before : Text
  tail : Text
  content : Text
  closed : Bool
deriving DecidableEq, Repr

namespace Regions

/-- The ways to cut blanks that end in a line break off the front of a text, longest first. -/
def blankCuts : Text → List (Text × Text)
  | [] => []
  | c :: s =>
    if Text.isBlank c then
      (blankCuts s).map (fun p => (c :: p.1, p.2)) ++ (if Text.isBreak c then [([c], s)] else [])
    else []

/-- The text behind the line breaks at the front, which must be there. -/
def afterBreaks? : Text → Option Text
  | [] => none
  | c :: s => if Text.isBreak c then some (s.dropWhile Text.isBreak) else none

/-- The text before the first place where `here?` finds something, and what it finds. -/
def firstCut {α : Type} (here? : Text → Option α) (s : Text) : Option (Text × α) :=
  match here? s with
  | some a => some ([], a)
  | none =>
    match s with
    | [] => none
    | c :: s => (firstCut here? s).map fun p => (c :: p.1, p.2)

/-- The text behind line breaks, a fence, and the blanks up to the last possible line break. -/
def blockEnd? (s : Text) : Option Text := do
  let s ← afterBreaks? s
  let s ← Text.after? fence s
  let cut ← (blankCuts s).head?
  some cut.2

/-- The front matter of a document. -/
def frontMatter? (source : Text) : Option FrontMatter := do
  let s ← Text.after? fence source
  (blankCuts s).findSome? fun cut =>
    (firstCut blockEnd? cut.2).map fun p => ⟨fence ++ cut.1, p.1, p.2⟩

/-- The text behind a fence, line breaks and the marker of a data section. -/
def opening? (s : Text) : Option Text := do
  let s ← Text.after? fence s
  let s ← afterBreaks? s
  Text.after? Data.marker s

/-- A closing fence, with nothing but blanks behind it. -/
def closing? (s : Text) : Option Unit := do
  let s ← afterBreaks? s
  let s ← Text.after? fence s
  if Text.isBlankText s then some () else none

/-- The body text before a data section, and the text behind the section's marker. -/
def dataStart? (rest : Text) : Option (Text × Text) :=
  firstCut (fun s => (afterBreaks? s).bind opening?) rest <|>
    (opening? rest).map fun tail => ([], tail)

/-- The data section in the text behind front matter. -/
def dataSection? (rest : Text) : Option DataSection :=
  (dataStart? rest).map fun (before, tail) =>
    match firstCut closing? tail with
    | some (content, _) => ⟨before, tail, content, true⟩
    | none => ⟨before, tail, tail, false⟩

/-- The number of the line in `source` on which its end `suffix` starts. -/
def lineOf (source suffix : Text) : Nat :=
  Text.breaks (source.take (source.length - suffix.length)) + 1

end Regions

/-- The regions of a document as they are read, and the warnings about them. -/
structure Regions where
  metadata : Metadata
  body : Text
  data : Data
  diagnostics : List Diagnostic

namespace Regions

/-- The regions of a document. -/
def read (source : Text) : Regions :=
  match frontMatter? source with
  | none => ⟨.empty, source, .empty, []⟩
  | some front =>
    let (metadata, warnings) := Metadata.read front.block (Text.breaks front.opening + 1)
    match dataSection? front.rest with
    | none => ⟨metadata, Text.trim front.rest, .empty, warnings⟩
    | some found =>
      ⟨metadata, Text.trim found.before, Data.read found.content,
        if found.closed then warnings
        else warnings ++ [.unclosedData (lineOf source found.tail)]⟩

end Regions

end Formdoc
