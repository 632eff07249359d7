/-
Reading a body.

The tokens of a body become its blocks one by one: a run of text gives the
blocks of its lines, and a tag gives the component that it names.  A tag that
names none is an error at its place, and gives no block.
-/
import Formdoc.Body.Markdown
import Formdoc.Body.Tag
import Formdoc.Body.Token
import Formdoc.Diagnostic

namespace Formdoc.Body

/-- The blocks that a token gives. -/
def blocksOf (t : Located Token) : List Block :=
  match t.value with
  | .text s => Markdown.read t.position s
  | .tag content _ => ((Tag.component? content t.position).map Block.component).toList

/-- The error of a tag that names no component. -/
def errorOf (t : Located Token) : Option Diagnostic :=
  match t.value with
  | .text _ => none
  | .tag content _ =>
    if (Tag.component? content t.position).isNone then some (.emptyTag t.position) else none

/-- The blocks that tokens give, and the errors in them. -/
def build (ts : List (Located Token)) : List Block × List Diagnostic :=
  (ts.flatMap blocksOf, ts.filterMap errorOf)

/-- The blocks of a body, and the errors in it. -/
def read (s : Text) : List Block × List Diagnostic :=
  build (locatedTokens s)

end Formdoc.Body
