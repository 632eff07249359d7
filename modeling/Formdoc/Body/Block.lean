/-
The blocks of a document's body.

A body is a list of blocks: headings, paragraphs and components.  Headings and
paragraphs hold inlines, which are texts or components; a body that was read
from text never has a component there, but one that was built may.  Each part
knows the place where it starts.  A component without properties has the empty
map of properties.
-/
import Formdoc.Number.Decimal
import Formdoc.OrderedMap
import Formdoc.Text.Lines

namespace Formdoc

/-- The value of a component's property. -/
inductive Property where
  | text (s : Text)
  | number (x : Binary64)
  | bool (b : Bool)
deriving DecidableEq, Repr

/-- The text of a property, if its value is one. -/
def Property.text? : Property → Option Text
  | text s => some s
  | _ => none

/-- A component: its name and its properties in order. -/
structure Component where
  name : Text
  props : OrderedMap Text Property
  position : Position
deriving DecidableEq

/-- The value of a property. -/
def Component.prop? (c : Component) (key : Text) : Option Property :=
  c.props.get? key

/-- A part of a heading or a paragraph. -/
inductive Inline where
  | text (value : Text) (position : Position)
  | component (c : Component)
deriving DecidableEq

/-- A block of a body. -/
inductive Block where
  | heading (level : Nat) (children : List Inline) (position : Position)
  | paragraph (children : List Inline) (position : Position)
  | component (c : Component)
deriving DecidableEq

/-- The component that an inline is, if it is one. -/
def Inline.component? : Inline → Option Component
  | component c => some c
  | text _ _ => none

/-- The components in a block, in order. -/
def Block.components : Block → List Component
  | heading _ children _ => children.filterMap Inline.component?
  | paragraph children _ => children.filterMap Inline.component?
  | component c => [c]

/-- The components in a body, in order. -/
def componentsOf (body : List Block) : List Component :=
  body.flatMap Block.components

/-! ### Bodies as data

Two bodies are the same data if their parts agree one by one, places included. -/

/-- The two values are the same data. -/
def Property.agrees : Property → Property → Bool
  | text a, text b => a == b
  | number a, number b => a.agrees b
  | bool a, bool b => a == b
  | _, _ => false

/-- The two components are the same data. The order of properties does not matter. -/
def Component.agrees (a b : Component) : Bool :=
  a.name == b.name && a.props.agrees Property.agrees b.props && a.position == b.position

/-- The two inlines are the same data. -/
def Inline.agrees : Inline → Inline → Bool
  | text a p, text b q => a == b && p == q
  | component a, component b => a.agrees b
  | _, _ => false

/-- Lists of one length whose members are related one by one. -/
def agreeInOrder {α : Type} (related : α → α → Bool) : List α → List α → Bool
  | [], [] => true
  | a :: as, b :: bs => related a b && agreeInOrder related as bs
  | _, _ => false

/-- The two blocks are the same data. -/
def Block.agrees : Block → Block → Bool
  | heading l as p, heading m bs q => l == m && agreeInOrder Inline.agrees as bs && p == q
  | paragraph as p, paragraph bs q => agreeInOrder Inline.agrees as bs && p == q
  | component a, component b => a.agrees b
  | _, _ => false

end Formdoc
