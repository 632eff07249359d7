/-
The lines of a text, and places in it.

A line feed ends a line.  `pieces` cuts a text behind each line feed, so that
the pieces joined are the text again (`flatten_pieces`); `lines` gives what
stands between the line feeds, one line more than there are line feeds
(`length_lines`).  A `Position` counts lines and columns from one, a column
being one character.
-/
import Formdoc.Text.Blank

namespace Formdoc

namespace Text

/-- What stands before, between and behind the occurrences of a character. -/
def split (sep : Char) : Text → List Text
  | [] => [[]]
  | c :: s => if c = sep then [] :: split sep s else (split sep s).modifyHead (c :: ·)

theorem length_split (sep : Char) (s : Text) : (split sep s).length = s.count sep + 1 := by
  induction s with
  | nil => rfl
  | cons c s ih =>
    by_cases h : c = sep
    · simp [split, h, ih]
    · simp [split, h, ih]

/-- The lines of a text without their line feeds. -/
def lines (s : Text) : List Text :=
  split '\n' s

/-- The number of line feeds in a text. -/
def breaks (s : Text) : Nat :=
  s.count '\n'

theorem length_lines (s : Text) : (lines s).length = breaks s + 1 :=
  length_split '\n' s

/-- The lines of a text, each with the line feed that ends it. The last one may lack it, and is
then not empty. -/
def pieces : Text → List Text
  | [] => []
  | c :: s =>
    if c = '\n' then [c] :: pieces s
    else
      match pieces s with
      | [] => [[c]]
      | p :: ps => (c :: p) :: ps

theorem flatten_pieces (s : Text) : (pieces s).flatten = s := by
  induction s with
  | nil => rfl
  | cons c s ih =>
    by_cases h : c = '\n'
    · simp [pieces, h, ih]
    · simp only [pieces, h, if_false]
      split
      · rename_i hp
        simp_all
      · rename_i p ps hp
        rw [hp] at ih
        simpa using ih

/-- The line without the carriage return that may end it. -/
def dropReturn (line : Text) : Text :=
  if line.getLast? = some '\r' then line.dropLast else line

/-- A line that says nothing: blank, or a comment, whose first character that is not blank is the
number sign. -/
def isSilent (line : Text) : Bool :=
  match trim line with
  | [] => true
  | c :: _ => c == '#'

end Text

/-- A place in a text, counted from one. -/
structure Position where
  line : Nat
  column : Nat
deriving DecidableEq, Repr

namespace Position

/-- The place of a text's first character. -/
def first : Position := ⟨1, 1⟩

/-- The place behind a character that stands at `p`. -/
def next (p : Position) (c : Char) : Position :=
  if c = '\n' then ⟨p.line + 1, 1⟩ else ⟨p.line, p.column + 1⟩

/-- The place behind a text that starts at `p`. -/
def after (p : Position) (s : Text) : Position :=
  s.foldl next p

@[simp] theorem after_append (p : Position) (s t : Text) : p.after (s ++ t) = (p.after s).after t :=
  List.foldl_append

/-- A place comes before another if its line does, or on one line its column. -/
def before (p q : Position) : Prop :=
  p.line < q.line ∨ (p.line = q.line ∧ p.column < q.column)

end Position

/-- A value and the place where it starts. -/
structure Located (α : Type) where
  value : α
  position : Position
deriving DecidableEq, Repr

namespace Located

/-- Consecutive stretches of text, each with the place where it starts. `text` gives the stretch
that a value stands for. -/
def spread {α : Type} (text : α → Text) : Position → List α → List (Located α)
  | _, [] => []
  | p, a :: as => ⟨a, p⟩ :: spread text (p.after (text a)) as

end Located

end Formdoc
