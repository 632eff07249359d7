/-
What the content of a component tag says.

The content is a row of words.  The first is the component's name.  A later
word of the form `key=rest`, with a key of word characters and a rest that is
not empty, gives the property `key`; its value is the inside of the rest if
that is a text in double or single quotation marks with no such mark inside,
and otherwise the rest as it stands.  Words of any other form are ignored.
-/
import Formdoc.Body.Block

namespace Formdoc.Tag

/-- The inside of a text that starts and ends with the mark `q` and has none inside. -/
def inside? (q : Char) (s : Text) : Option Text :=
  match s with
  | c :: d :: r =>
    if c = q ∧ (d :: r).getLast? = some q ∧ q ∉ (d :: r).dropLast then some (d :: r).dropLast
    else none
  | _ => none

/-- The value that is written behind the equals sign. -/
def propertyValue (s : Text) : Text :=
  match inside? '"' s, inside? '\'' s with
  | some v, _ => v
  | none, some v => v
  | none, none => s

/-- The property that a word gives, if it gives one. -/
def property? (word : Text) : Option (Text × Property) :=
  match word.takeWhile Text.isWordChar, word.dropWhile Text.isWordChar with
  | [], _ => none
  | key, '=' :: c :: r => some (key, .text (propertyValue (c :: r)))
  | _, _ => none

/-- The component that a tag's content denotes, if it names one. -/
def component? (content : Text) (position : Position) : Option Component :=
  match Text.words content with
  | [] => none
  | name :: rest => some ⟨name, OrderedMap.ofList (rest.filterMap property?), position⟩

end Formdoc.Tag
