/-
The registry: the tabs of the palette, and its components by their ids.

A component is found under its id by its slot, which is the number of its tab
and its place in the tab.  When a tab is added, each of its components whose id
is new is entered; the places of the others are returned.
-/
import Formdoc.Json.Value
import Formdoc.Palette.Manifest

namespace Formdoc

/-- A group of components with a name. -/
structure Tab where
  name : Text
  description : Option Text
  components : List Manifest
deriving DecidableEq, Repr

/-- Where a component stands in the palette. -/
structure Slot where
  tab : Nat
  place : Nat
deriving DecidableEq, Repr

/-- The tabs of the palette, and the slots of the ids. -/
structure Registry where
  tabs : List Tab
  slots : OrderedMap Text Slot

namespace Registry

/-- The registry without tabs. -/
def empty : Registry := ⟨[], .empty⟩

/-- The slots with those of components whose ids are new, and the places of the others. `tab` is
the number of the components' tab and `place` the place of the first of them. -/
def enter (tab : Nat) : Nat → List Manifest → OrderedMap Text Slot →
    OrderedMap Text Slot × List Nat
  | _, [], slots => (slots, [])
  | place, m :: ms, slots =>
    if slots.contains m.id then
      let (slots, repeated) := enter tab (place + 1) ms slots
      (slots, place :: repeated)
    else enter tab (place + 1) ms (slots.insert m.id ⟨tab, place⟩)

/-- The registry with one more tab, and the places in it of components whose ids were taken. -/
def push (r : Registry) (t : Tab) : Registry × List Nat :=
  let (slots, repeated) := enter r.tabs.length 0 t.components r.slots
  (⟨r.tabs ++ [t], slots⟩, repeated)

/-- The component in a slot. -/
def at? (r : Registry) (s : Slot) : Option Manifest := do
  let t ← r.tabs[s.tab]?
  t.components[s.place]?

/-- The component with an id. -/
def get? (r : Registry) (id : Text) : Option Manifest :=
  (r.slots.get? id).bind r.at?

/-- Some component has the id. -/
def contains (r : Registry) (id : Text) : Bool :=
  r.slots.contains id

/-- The components of a tab with their slots. `tab` is the number of the tab and `place` the place
of the first of them. -/
def slotted (tab place : Nat) (ms : List Manifest) : List (Slot × Manifest) :=
  (ms.zipIdx place).map fun e => (⟨tab, e.2⟩, e.1)

/-- The components with their slots, in order of the palette. -/
def components (r : Registry) : List (Slot × Manifest) :=
  r.tabs.zipIdx.flatMap fun e => slotted e.2 0 e.1.components

/-- The ids, in order of the palette: those of the components that are found under them. -/
def ids (r : Registry) : List Text :=
  (r.components.filter fun e => decide (r.slots.get? e.2.id = some e.1)).map fun e => e.2.id

/-- The number of ids. -/
def size (r : Registry) : Nat :=
  r.slots.size

/-- No id is entered. -/
def isEmpty (r : Registry) : Bool :=
  r.slots.isEmpty

/-- A field that is left out where it has no value. -/
def optional (name : Text) : Option Text → List (Text × Json)
  | some s => [(name, .text s)]
  | none => []

/-- A manifest as JSON. -/
def manifestJson (m : Manifest) : Json :=
  .object ([(RequiredField.id.key, .text m.id), (RequiredField.label.key, .text m.label)] ++
    optional Manifest.iconKey m.icon ++ [(RequiredField.template.key, .text m.template)] ++
    optional Manifest.descriptionKey m.description)

/-- A tab as JSON. -/
def tabJson (t : Tab) : Json :=
  .object ([("name".toList, .text t.name)] ++ optional "description".toList t.description ++
    [("components".toList, .array (t.components.map manifestJson))])

/-- The registry as JSON. -/
def toJson (r : Registry) : Json :=
  .object [("tabs".toList, .array (r.tabs.map tabJson))]

end Registry

end Formdoc
