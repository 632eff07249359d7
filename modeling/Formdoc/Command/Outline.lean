/-
The outline of a document: its metadata, a line for each block, and its data.

The line of a block starts with the number of the line in which the block
starts.  Texts are shown as literals, and a component within a text by its name
in square brackets.
-/
import Formdoc.Command.Event
import Formdoc.Document.Basic

namespace Formdoc

/-- The text with spaces in front, at least as long as `width`. -/
def padStart (width : Nat) (s : Text) : Text :=
  List.replicate (width - s.length) ' ' ++ s

/-- The text with spaces behind, at least as long as `width`. -/
def padEnd (width : Nat) (s : Text) : Text :=
  s ++ List.replicate (width - s.length) ' '

namespace Outline

/-- The text of a piece of a line. -/
def inline : Inline → Text
  | .text s _ => Text.trimEnd s
  | .component c => '[' :: c.name ++ [']']

/-- The literal of the text of some pieces. -/
def inlines (children : List Inline) : Text :=
  Text.literal ([' '].intercalate (children.map inline))

/-- A property with its value. -/
def property (key : Text) (p : Property) : Text :=
  key ++ '=' ::
    match p with
    | .text s => Text.literal s
    | .number x => x.plainText
    | .bool b => Scalar.display (.bool b)

/-- The line of a block. -/
def block (b : Block) : Text :=
  let line (n : Nat) (s : Text) : Text := padStart 4 (digitsOf n) ++ ' ' :: ' ' :: s
  match b with
  | .heading level children p =>
    line p.line ("Heading h".toList ++ digitsOf level ++ ' ' :: inlines children)
  | .paragraph children p => line p.line ("Paragraph ".toList ++ inlines children)
  | .component c =>
    line c.position.line ("Component ".toList ++ c.name ++ ' ' ::
      [' '].intercalate (c.props.entries.map fun e => property e.1 e.2))

/-- The lines of a document. Empty lines set off the metadata and the data. -/
def lines (d : Document) : List Text :=
  (d.metadata.entries.map fun e => e.1 ++ ':' :: ' ' :: e.2.display) ++
    (if d.metadata.isEmpty then [] else [[]]) ++ d.body.map block ++
    (if d.data.isEmpty then [] else [[]]) ++
    d.data.entries.map fun e => ' ' :: ' ' :: e.1 ++ " = ".toList ++ e.2.compact

end Outline

end Formdoc
