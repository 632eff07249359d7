/-
Field values: the values of the data section.

A field value is a JSON value.  `Field.write` puts it on one line, `Field.read`
reads a line's value.  A text stands between quotation marks; in it the
backslash, the quotation mark, the line feed and the carriage return are
escaped (`escape`), so that the text neither ends the line nor closes the marks.
`unescape` is its inverse (`unescape_escape`), and leaves an escape that it
does not know as it is.

Other than in metadata, keywords and numbers are looked for before quotation
marks are stripped, so that a number between quotation marks is a text.
-/
import Formdoc.Json.Value
import Formdoc.Scalar

namespace Formdoc.Field

/-- A character as it stands in an escaped text. -/
def escapeChar (c : Char) : Text :=
  if c = '\\' then ['\\', '\\']
  else if c = '"' then ['\\', '"']
  else if c = '\n' then ['\\', 'n']
  else if c = '\r' then ['\\', 'r']
  else [c]

/-- The text with what would end it or its line escaped. -/
def escape (s : Text) : Text :=
  s.flatMap escapeChar

/-- What an escape with the given second character stands for. -/
def unescapePair (c : Char) : Text :=
  if c = 'n' then ['\n']
  else if c = 'r' then ['\r']
  else if c = '"' ∨ c = '\\' then [c]
  else ['\\', c]

/-- The text that an escaped text stands for. -/
def unescape : Text → Text
  | [] => []
  | [c] => [c]
  | c :: d :: s => if c = '\\' then unescapePair d ++ unescape s else c :: unescape (d :: s)

theorem unescape_escapeChar_append (c : Char) (s : Text) :
    unescape (escapeChar c ++ s) = c :: unescape s := by
  unfold escapeChar
  split
  · subst c
    rfl
  · split
    · subst c
      rfl
    · split
      · subst c
        rfl
      · split
        · subst c
          rfl
        · rename_i h _ _ _
          cases s with
          | nil => rfl
          | cons d s => simp [unescape, h]

theorem unescape_escape (s : Text) : unescape (escape s) = s := by
  induction s with
  | nil => rfl
  | cons c s ih =>
    have : escape (c :: s) = escapeChar c ++ escape s := rfl
    rw [this, unescape_escapeChar_append, ih]

/-- The value on one line. -/
def write : Json → Text
  | .text s => '"' :: escape s ++ ['"']
  | v => v.compact

/-- The value that a number stands for. An infinite one has no JSON form and is `null`. -/
def ofNumeral : Numeral → Json
  | .int n => .int n
  | .float x => if x.isFinite then .float x else .null

/-- The inside of a text between double quotation marks. -/
def quoted? : Text → Option Text
  | '"' :: c :: r => if (c :: r).getLast? = some '"' then some (c :: r).dropLast else none
  | _ => none

/-- The keyword that a text is, if it is one. -/
def keyword? (s : Text) : Option Json :=
  if s = ['n', 'u', 'l', 'l'] then some .null
  else (Scalar.keyword? s).map .bool

/-- The value that a line's text denotes. -/
def read (raw : Text) : Json :=
  let s := Text.trim raw
  match keyword? s with
  | some v => v
  | none =>
    match Numeral.read? s with
    | some n => ofNumeral n
    | none =>
      match quoted? s with
      | some r => .text (unescape r)
      | none => .text (unquote s)

end Formdoc.Field
