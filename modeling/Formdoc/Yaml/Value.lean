/-
YAML values, as far as configuration files need them.

A scalar keeps whether it was written plain, without quotation marks.  A plain
scalar without text stands for nothing at all, and so do the plain words for
null where a value may be missing.
-/
import Formdoc.Text.Blank

namespace Formdoc

/-- A YAML value. -/
inductive Yaml where
  | scalar (s : Text) (isPlain : Bool)
  | sequence (items : List Yaml)
  | mapping (entries : List (Yaml × Yaml))
deriving Repr

namespace Yaml

/-- The value of a place where nothing is written. -/
def blank : Yaml := scalar [] true

/-- The words for null. -/
def nullWords : List Text := ["null".toList, "Null".toList, "NULL".toList, ['~']]

/-- Nothing is written, or a plain word for null. -/
def isNull : Yaml → Bool
  | scalar s true => s.isEmpty || nullWords.contains s
  | _ => false

/-- The text of a scalar. -/
def text? : Yaml → Option Text
  | scalar s _ => some s
  | _ => none

/-- The items of a sequence. Where nothing is written there are none. -/
def items? : Yaml → Option (List Yaml)
  | sequence items => some items
  | scalar [] true => some []
  | _ => none

/-- The values of a record by the names of its fields, which a mapping gives by their keys. Where
nothing is written there are none. Keys that name no field are left out. A key that is no scalar
and a field that occurs twice are errors. -/
def record? (fields : List Text) : Yaml → Option (List (Text × Yaml))
  | mapping entries => do
    let named ← entries.mapM fun e => (text? e.1).map (·, e.2)
    let known := named.filter fun e => fields.contains e.1
    if (known.map Prod.fst).Nodup then some known else none
  | scalar [] true => some []
  | _ => none

end Yaml

end Formdoc
