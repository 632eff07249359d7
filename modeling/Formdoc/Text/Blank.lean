/-
Text and the blank characters in it.

Text is a list of characters.  A character is blank when it has the property
White_Space of the Unicode standard; the table `blankRanges` is that property,
twenty-five code points in ten ranges.  Trimming and cutting into words go by
it, and by nothing else:

* `trim` drops the blanks at both ends;
* `words` gives the maximal runs of characters that are not blank.

Core's `Char.isWhitespace` knows only four of the twenty-five
(`isBlank_of_isWhitespace`).
-/
namespace Formdoc

/-- Text, character by character. -/
abbrev Text := List Char

-- What holds of all characters of a text is decided along the text, not over all characters.
attribute [instance (2000)] List.decidableBAll

namespace Text

/-- The code points with the property White_Space, as inclusive ranges. -/
def blankRanges : List (Nat × Nat) :=
  [(0x09, 0x0D), (0x20, 0x20), (0x85, 0x85), (0xA0, 0xA0), (0x1680, 0x1680), (0x2000, 0x200A),
   (0x2028, 0x2029), (0x202F, 0x202F), (0x205F, 0x205F), (0x3000, 0x3000)]

/-- A blank is a character with the property White_Space. -/
def isBlank (c : Char) : Bool :=
  blankRanges.any fun r => decide (r.1 ≤ c.toNat) && decide (c.toNat ≤ r.2)

/-- A line break character: line feed or carriage return. -/
def isBreak (c : Char) : Bool :=
  c == '\n' || c == '\r'

/-- A blank within a line: a space or a tab. -/
def isInlineBlank (c : Char) : Bool :=
  c == ' ' || c == '\t'

/-- A key character: an ASCII letter, an ASCII digit or the underscore. -/
def isWordChar (c : Char) : Bool :=
  c.isAlphanum || c == '_'

theorem isBlank_of_isBreak {c : Char} (h : isBreak c = true) : isBlank c = true := by
  have : c = '\n' ∨ c = '\r' := by simpa [isBreak] using h
  rcases this with rfl | rfl <;> decide

theorem isBlank_of_isWhitespace {c : Char} (h : c.isWhitespace = true) : isBlank c = true := by
  have : ((c = ' ' ∨ c = '\t') ∨ c = '\r') ∨ c = '\n' := by simpa [Char.isWhitespace] using h
  rcases this with ((rfl | rfl) | rfl) | rfl <;> decide

example : (blankRanges.map fun r => r.2 + 1 - r.1).sum = 25 := by decide

/-- The text less the elements at its end that satisfy `p`. -/
def dropEndWhile (p : Char → Bool) (s : Text) : Text :=
  (s.reverse.dropWhile p).reverse

/-- The text less the blanks at its front. -/
def trimStart (s : Text) : Text :=
  s.dropWhile isBlank

/-- The text less the blanks at its end. -/
def trimEnd (s : Text) : Text :=
  dropEndWhile isBlank s

/-- The text less the blanks at both ends. -/
def trim (s : Text) : Text :=
  trimEnd (trimStart s)

theorem length_dropWhile_le (p : Char → Bool) (s : Text) : (s.dropWhile p).length ≤ s.length :=
  (List.dropWhile_suffix p).length_le

/-- The maximal runs of characters that are not blank, in order. -/
def words (s : Text) : List Text :=
  match _split : trimStart s with
  | [] => []
  | c :: r => (c :: r.takeWhile (!isBlank ·)) :: words (r.dropWhile (!isBlank ·))
termination_by s.length
decreasing_by
  have hr := length_dropWhile_le (!isBlank ·) r
  have hs := length_dropWhile_le isBlank s
  simp only [trimStart] at _split
  rw [_split, List.length_cons] at hs
  omega

/-- The text is blank throughout. -/
def isBlankText (s : Text) : Bool :=
  s.all isBlank

end Text

end Formdoc
