/-
Documents as JSON.

Every block and inline is an object that starts with its type and ends with its
place.  Properties are left out where there are none.
-/
import Formdoc.Document.Basic

namespace Formdoc

/-- The fields of a place. -/
def Position.fields (p : Position) : List (Text × Json) :=
  [("line".toList, .int p.line), ("column".toList, .int p.column)]

/-- A property as JSON. -/
def Property.toJson : Property → Json
  | text s => .text s
  | number x => .float x
  | bool b => .bool b

/-- A component as JSON. -/
def Component.toJson (c : Component) : Json :=
  .object ([("type".toList, .text "Component".toList), ("name".toList, .text c.name)] ++
    (if c.props.isEmpty then []
      else [("props".toList, .object (c.props.entries.map fun e => (e.1, e.2.toJson)))]) ++
    c.position.fields)

/-- An inline as JSON. -/
def Inline.toJson : Inline → Json
  | text s p =>
    .object ([("type".toList, .text "Text".toList), ("value".toList, .text s)] ++ p.fields)
  | component c => c.toJson

/-- A block as JSON. -/
def Block.toJson : Block → Json
  | heading level children p =>
    .object ([("type".toList, .text "Heading".toList), ("level".toList, .int level),
      ("children".toList, .array (children.map Inline.toJson))] ++ p.fields)
  | paragraph children p =>
    .object ([("type".toList, .text "Paragraph".toList),
      ("children".toList, .array (children.map Inline.toJson))] ++ p.fields)
  | component c => c.toJson

/-- A scalar as JSON. -/
def Scalar.toJson : Scalar → Json
  | text s => .text s
  | int n => .int n
  | float x => .float x
  | bool b => .bool b

/-- A document as JSON. -/
def Document.toJson (d : Document) : Json :=
  .object [
    ("metadata".toList, .object (d.metadata.entries.map fun e => (e.1, e.2.toJson))),
    ("body".toList, .object [("type".toList, .text "Document".toList),
      ("children".toList, .array (d.body.map Block.toJson))]),
    ("data".toList, .object d.data.entries)]

/-- A document with what is to be said about it, as JSON. -/
def Reading.toJson (r : Reading) : Json :=
  .object [("ast".toList, r.document.toJson),
    ("diagnostics".toList, .array (r.diagnostics.map Diagnostic.toJson))]

end Formdoc
