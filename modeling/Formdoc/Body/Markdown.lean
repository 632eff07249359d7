/-
Headings and paragraphs in a run of text.

A run is read line by line.  A line that is blank belongs to no block.  A line
that is one to six number signs, blanks and more text, once the blanks around
it are gone, is a heading of that level.  Any other line is prose, and each
maximal run of prose lines is a paragraph, whose texts are its lines as they
are written, line feeds included.
-/
import Formdoc.Body.Block

namespace Formdoc.Markdown

/-- What a line is. -/
inductive LineKind where
  | blank
  | heading (level : Nat) (title : Text)
  | prose
deriving DecidableEq, Repr

/-- The greatest level of a heading. -/
def maxLevel : Nat := 6

/-- What a line without blanks around it is. -/
def kindOfTrimmed (s : Text) : LineKind :=
  if s = [] then .blank
  else
    let marks := s.takeWhile (· == '#')
    match s.dropWhile (· == '#') with
    | c :: r =>
      if 1 ≤ marks.length ∧ marks.length ≤ maxLevel ∧ Text.isBlank c then
        .heading marks.length (Text.trimStart r)
      else .prose
    | [] => .prose

/-- What a line is. -/
def kind (line : Text) : LineKind :=
  kindOfTrimmed (Text.trim line)

/-- The line is prose. -/
def isProse (line : Located Text) : Bool :=
  kind line.value == .prose

/-- A line of a paragraph. -/
def proseText (line : Located Text) : Inline :=
  .text line.value line.position

/-- The blocks that lines form. -/
def group : List (Located Text) → List Block
  | [] => []
  | line :: rest =>
    match kind line.value with
    | .blank => group rest
    | .heading level title =>
      .heading level [.text title line.position] line.position :: group rest
    | .prose =>
      .paragraph ((line :: rest.takeWhile isProse).map proseText) line.position ::
        group (rest.dropWhile isProse)
termination_by lines => lines.length
decreasing_by
  · simp
  · simp
  · have := (List.dropWhile_suffix isProse (l := rest)).length_le
    simp only [List.length_cons]
    omega

/-- The blocks in a run of text that starts at the given place. -/
def read (start : Position) (s : Text) : List Block :=
  group (Located.spread id start (Text.pieces s))

end Formdoc.Markdown
