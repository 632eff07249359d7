/-
Writing a body.

Blocks are written one after another with an empty line between them.  A
heading is its number signs, a blank and its inlines; a paragraph is its
inlines; a component is a tag, with its properties in order.  A text property
stands between double quotation marks and a number between braces; a true
property is its key alone, and a false one is left out.
-/
import Formdoc.Body.Block
import Formdoc.Body.Token
import Formdoc.Scalar

namespace Formdoc

/-- A property in a tag, behind the blank that separates it. -/
def Property.write (key : Text) : Property → Text
  | text s => ' ' :: key ++ ['=', '"'] ++ s ++ ['"']
  | number x => ' ' :: key ++ ['=', '\x7b'] ++ x.briefText ++ ['\x7d']
  | bool true => ' ' :: key
  | bool false => []

/-- A component as a tag. -/
def Component.write (c : Component) : Text :=
  openMark ++ ' ' :: c.name ++ c.props.entries.flatMap (fun e => e.2.write e.1) ++
    ' ' :: closeMark ++ [']']

/-- An inline as text. -/
def Inline.write : Inline → Text
  | text s _ => s
  | component c => c.write

/-- A block as text. -/
def Block.write : Block → Text
  | heading level children _ =>
    List.replicate level '#' ++ ' ' :: children.flatMap Inline.write
  | paragraph children _ => children.flatMap Inline.write
  | component c => c.write

namespace Body

/-- What stands between two blocks. -/
def separator : Text := ['\n', '\n']

/-- A body as text. -/
def write (body : List Block) : Text :=
  separator.intercalate (body.map Block.write)

end Body

end Formdoc
