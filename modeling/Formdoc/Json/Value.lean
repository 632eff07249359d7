/-
JSON values and their text.

Numbers are whole numbers or binary64 numbers, and the two never agree with
each other.  The fields of an object keep their order.  There are two texts of
a value: `compact`, without any blank, and `pretty`, with two blanks of
indentation for each level.  A number that is infinite or no number is written
`null`.

`agrees` compares two values as data: the order of fields does not matter.
-/
import Formdoc.Number.Decimal
import Formdoc.OrderedMap

namespace Formdoc

/-- A JSON value. -/
inductive Json where
  | null
  | bool (b : Bool)
  | int (n : Int)
  | float (x : Binary64)
  | text (s : Text)
  | array (items : List Json)
  | object (fields : List (Text × Json))
deriving Repr

namespace Json

instance : Inhabited Json := ⟨null⟩

/-- A truth value's keyword. -/
def boolText (b : Bool) : Text :=
  if b then "true".toList else "false".toList

/-- The magnitude of a number that is written in JSON: all places when its leading digit stands
for `10 ^ -5` to `10 ^ 15`, otherwise with an exponent. A whole number in full gets `.0`. Of two
equally near texts the even one is taken. -/
def magnitudeText (rank : Nat) : Text :=
  let d := Decimal.shortest .toEven rank
  let e := d.leadExponent
  if -5 ≤ e ∧ e ≤ 15 then
    if 0 ≤ d.significant.2 then d.plain ++ ".0".toList else d.plain
  else d.scientific

/-- The text of a binary64 number. -/
def floatText : Binary64 → Text
  | .finite n r => (if n then ['-'] else []) ++ magnitudeText r
  | _ => "null".toList

/-- A hexadecimal digit in lower case. -/
def hexDigit (n : Nat) : Char :=
  Nat.digitChar n

/-- A character between quotation marks: the two that would end or escape are escaped, and the
control characters below the space. -/
def escapeChar (c : Char) : Text :=
  if c = '"' then ['\\', '"']
  else if c = '\\' then ['\\', '\\']
  else if c = '\n' then ['\\', 'n']
  else if c = '\r' then ['\\', 'r']
  else if c = '\t' then ['\\', 't']
  else if c = '\x08' then ['\\', 'b']
  else if c = '\x0c' then ['\\', 'f']
  else if c.toNat < 32 then ['\\', 'u', '0', '0', hexDigit (c.toNat / 16), hexDigit (c.toNat % 16)]
  else [c]

/-- A text between quotation marks. -/
def quote (s : Text) : Text :=
  '"' :: s.flatMap escapeChar ++ ['"']

mutual

/-- The text of a value without blanks. -/
def compact : Json → Text
  | null => "null".toList
  | bool b => boolText b
  | int n => integerText n
  | float x => floatText x
  | text s => quote s
  | array items => '[' :: compactItems items ++ [']']
  | object fields => '\x7b' :: compactFields fields ++ ['\x7d']

/-- The texts of items, with commas between them. -/
def compactItems : List Json → Text
  | [] => []
  | [v] => compact v
  | v :: w :: vs => compact v ++ ',' :: compactItems (w :: vs)

/-- The texts of fields, with commas between them. -/
def compactFields : List (Text × Json) → Text
  | [] => []
  | [(k, v)] => quote k ++ ':' :: compact v
  | (k, v) :: f :: fs => quote k ++ ':' :: (compact v ++ ',' :: compactFields (f :: fs))

end

/-- A new line at a level of indentation. -/
def newLine (level : Nat) : Text :=
  '\n' :: List.replicate (2 * level) ' '

mutual

/-- The text of a value, spread over lines, from the given level of indentation on. -/
def prettyAt : Nat → Json → Text
  | _, null => "null".toList
  | _, bool b => boolText b
  | _, int n => integerText n
  | _, float x => floatText x
  | _, text s => quote s
  | _, array [] => ['[', ']']
  | level, array items => '[' :: prettyItems (level + 1) items ++ newLine level ++ [']']
  | _, object [] => ['\x7b', '\x7d']
  | level, object fields =>
    '\x7b' :: prettyFields (level + 1) fields ++ newLine level ++ ['\x7d']

/-- Items on lines of their own, with commas between them. -/
def prettyItems : Nat → List Json → Text
  | _, [] => []
  | level, [v] => newLine level ++ prettyAt level v
  | level, v :: w :: vs => newLine level ++ prettyAt level v ++ ',' :: prettyItems level (w :: vs)

/-- Fields on lines of their own, with commas between them. -/
def prettyFields : Nat → List (Text × Json) → Text
  | _, [] => []
  | level, [(k, v)] => newLine level ++ quote k ++ ':' :: ' ' :: prettyAt level v
  | level, (k, v) :: f :: fs =>
    newLine level ++ quote k ++ ':' :: ' ' ::
      (prettyAt level v ++ ',' :: prettyFields level (f :: fs))

end

/-- The text of a value, spread over lines. -/
def pretty (v : Json) : Text :=
  prettyAt 0 v

mutual

/-- The two values are the same data. -/
def agrees : Json → Json → Bool
  | null, null => true
  | bool a, bool b => a == b
  | int a, int b => a == b
  | float a, float b => a.agrees b
  | text a, text b => a == b
  | array a, array b => agreeItems a b
  | object a, object b => a.length == b.length && agreeFields a b
  | _, _ => false

/-- The items agree one by one. -/
def agreeItems : List Json → List Json → Bool
  | [], [] => true
  | v :: vs, w :: ws => agrees v w && agreeItems vs ws
  | _, _ => false

/-- Each of the first fields agrees with the second field of its name. -/
def agreeFields : List (Text × Json) → List (Text × Json) → Bool
  | [], _ => true
  | (k, v) :: fs, gs =>
    (match gs.lookup k with
      | some w => agrees v w
      | none => false) && agreeFields fs gs

end

end Json

end Formdoc
