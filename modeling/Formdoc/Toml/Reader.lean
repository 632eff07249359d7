/-
Reading TOML text.

A document is a row of lines: headers `[a.b]` and `[[a.b]]`, entries
`a.b = value`, comments and empty lines.  The lines give statements, and
`Toml.ofStatements?` puts them together.  Arrays may run over several lines and
may end in a comma, tables between braces may not.  Arrays and tables may be
nested to a depth of 79, and a key may have as many parts.
-/
import Formdoc.Text.Search
import Formdoc.Toml.Word

namespace Formdoc.Toml

/-! ### Lines -/

/-- A character that may stand for itself in a comment or a text: any but the control characters
of ASCII, of which only the tab may. -/
def isPrintable (c : Char) : Bool :=
  c == '\t' || (decide (32 ≤ c.toNat) && c.toNat != 127)

/-- The text behind blanks on the line. -/
def skipBlanks (s : Text) : Text :=
  s.dropWhile Text.isInlineBlank

/-- The text behind a comment, if one is there. -/
def skipComment : Text → Text
  | '#' :: s => s.dropWhile isPrintable
  | s => s

/-- The text behind a line break. -/
def newline? : Text → Option Text
  | '\n' :: s => some s
  | '\r' :: '\n' :: s => some s
  | _ => none

/-- The text from the next line on, if nothing but a comment is left on this one. -/
def lineEnd? (s : Text) : Option Text :=
  match skipComment (skipBlanks s) with
  | [] => some []
  | s => newline? s

/-- The text behind blanks, comments and line breaks. -/
def skipLines : Nat → Text → Text
  | 0, s => s
  | fuel + 1, s =>
    let s := skipBlanks s
    match newline? (skipComment s) with
    | some r => skipLines fuel r
    | none => s

/-- The text behind blanks and line breaks. -/
def skipEmpty : Nat → Text → Text
  | 0, s => s
  | fuel + 1, s =>
    let s := skipBlanks s
    match newline? s with
    | some r => skipEmpty fuel r
    | none => s

/-! ### Texts -/

/-- What a letter or mark stands for behind a backslash. -/
def escaped? : Char → Option Char
  | 'b' => some '\x08'
  | 't' => some '\t'
  | 'n' => some '\n'
  | 'f' => some '\x0c'
  | 'r' => some '\r'
  | '"' => some '"'
  | '\\' => some '\\'
  | _ => none

/-- The character that stands behind a backslash, and the rest. -/
def escape? : Text → Option (Char × Text)
  | [] => none
  | 'u' :: s => do
    let (n, r) ← Text.hexPrefix? 4 s
    (Text.charOf? n).map (·, r)
  | 'U' :: s => do
    let (n, r) ← Text.hexPrefix? 8 s
    (Text.charOf? n).map (·, r)
  | c :: s => (escaped? c).map (·, s)

/-- The text up to the quotation mark that closes it on its line, and the rest. Only in double
quotation marks a backslash is special. -/
def shortText? (q : Char) : Nat → Text → Option (Text × Text)
  | 0, _ => none
  | _, [] => none
  | fuel + 1, c :: s =>
    if c = q then some ([], s)
    else do
      let (c, s) ←
        if c = '\\' ∧ q = '"' then escape? s
        else if isPrintable c then some (c, s)
        else none
      let (t, r) ← shortText? q fuel s
      some (c :: t, r)

/-- Quotation marks behind the three that close a text belong to it, if they are at most two. -/
def closing (q : Char) : Text → Text × Text
  | a :: b :: s => if a = q then if b = q then ([q, q], s) else ([q], b :: s) else ([], a :: b :: s)
  | [a] => if a = q then ([q], []) else ([], [a])
  | [] => ([], [])

/-- The text up to the three quotation marks that close it, and the rest. A line break counts as a
line feed, and behind a backslash as nothing, like the blanks and line breaks that follow it. -/
def longText? (q : Char) : Nat → Text → Option (Text × Text)
  | 0, _ => none
  | fuel + 1, s =>
    match Text.after? [q, q, q] s, newline? s, s with
    | some r, _, _ => some (closing q r)
    | _, some r, _ => (longText? q fuel r).map fun p => ('\n' :: p.1, p.2)
    | _, _, [] => none
    | _, _, c :: s =>
      if c = '\\' ∧ q = '"' then
        match newline? (skipBlanks s) with
        | some r => longText? q fuel (skipEmpty r.length r)
        | none => do
          let (c, s) ← escape? s
          (longText? q fuel s).map fun p => (c :: p.1, p.2)
      else if isPrintable c then (longText? q fuel s).map fun p => (c :: p.1, p.2)
      else none

/-- The text whose first quotation mark has been read, and the rest. A line break right behind
three of them does not count. -/
def quoted? (q : Char) (s : Text) : Option (Text × Text) :=
  match Text.after? [q, q] s with
  | some r => longText? q (r.length + 1) ((newline? r).getD r)
  | none => shortText? q (s.length + 1) s

/-! ### Keys -/

/-- A character of keys without quotation marks. -/
def isKeyPart (c : Char) : Bool :=
  c.isAlphanum || c == '_' || c == '-'

/-- A part of a key, and the rest. -/
def keyPart? : Text → Option (Text × Text)
  | '"' :: s => shortText? '"' (s.length + 1) s
  | '\'' :: s => shortText? '\'' (s.length + 1) s
  | s =>
    match s.takeWhile isKeyPart with
    | [] => none
    | k => some (k, s.dropWhile isKeyPart)

/-- The parts of a key before the last, its last part, and the rest. `fuel` is the greatest number
of parts. -/
def path? : Nat → Text → Option (List Text × Text × Text)
  | 0, _ => none
  | fuel + 1, s => do
    let (k, s) ← keyPart? (skipBlanks s)
    match skipBlanks s with
    | '.' :: s =>
      let (path, last, r) ← path? fuel s
      some (k :: path, last, r)
    | s => some ([], k, s)

/-- The greatest depth of nesting, and the greatest number of parts of a key. -/
def depthLimit : Nat := 79

/-! ### Values -/

/-- An entry: the parts of its key before the last, the last part, its value, and the rest. -/
def binding? (value? : Text → Option (Toml × Text)) (s : Text) :
    Option ((List Text × Text × Toml) × Text) := do
  let (path, k, s) ← path? depthLimit s
  match s with
  | '=' :: s =>
    let (v, s) ← value? (skipBlanks s)
    some ((path, k, v), s)
  | _ => none

/-- The items of an array up to its end, and the rest. -/
def arrayItems? (value? : Text → Option (Toml × Text)) : Nat → Text → Option (List Toml × Text)
  | 0, _ => none
  | fuel + 1, s =>
    match skipLines s.length s with
    | ']' :: r => some ([], r)
    | s => do
      let (v, s) ← value? s
      match skipLines s.length s with
      | ',' :: s =>
        let (vs, r) ← arrayItems? value? fuel s
        some (v :: vs, r)
      | ']' :: r => some ([v], r)
      | _ => none

/-- The entries of a table between braces, at least one, up to its end, and the rest. -/
def tableEntries? (value? : Text → Option (Toml × Text)) :
    Nat → Text → Option (List (List Text × Text × Toml) × Text)
  | 0, _ => none
  | fuel + 1, s => do
    let (e, s) ← binding? value? s
    match skipBlanks s with
    | ',' :: s =>
      let (es, r) ← tableEntries? value? fuel s
      some (e :: es, r)
    | '\x7d' :: r => some ([e], r)
    | _ => none

/-- The table whose opening brace has been read, and the rest. -/
def table? (value? : Text → Option (Toml × Text)) (s : Text) : Option (Toml × Text) :=
  match skipBlanks s with
  | '\x7d' :: r => some (table .closed [], r)
  | s => do
    let (es, r) ← tableEntries? value? (s.length + 1) s
    (ofEntries? es).map (·, r)

/-- The value at the front of a text, nested at most to the given depth, and the rest. -/
def value? : Nat → Text → Option (Toml × Text)
  | depth, s =>
    match s with
    | '"' :: s => (quoted? '"' s).map fun p => (text p.1, p.2)
    | '\'' :: s => (quoted? '\'' s).map fun p => (text p.1, p.2)
    | '[' :: s =>
      match depth with
      | 0 => none
      | depth + 1 => (arrayItems? (value? depth) (s.length + 1) s).map fun p => (array p.1, p.2)
    | '\x7b' :: s =>
      match depth with
      | 0 => none
      | depth + 1 => table? (value? depth) s
    | s => spanWord? s

/-! ### Documents -/

/-- The statement at the front of a text, up to the end of its line or its comment. -/
def statement? (s : Text) : Option (Statement × Text) :=
  match s with
  | '[' :: '[' :: s => do
    let (path, k, s) ← path? depthLimit s
    let r ← Text.after? [']', ']'] s
    some (.item path k, r)
  | '[' :: s => do
    let (path, k, s) ← path? depthLimit s
    let r ← Text.after? [']'] s
    some (.header path k, r)
  | s => (binding? (value? depthLimit) s).map fun p => (.entry p.1.1 p.1.2.1 p.1.2.2, p.2)

/-- The statements of a document. `fuel` bounds the number of lines. -/
def statements? : Nat → Text → Option (List Statement)
  | 0, _ => none
  | fuel + 1, s =>
    match skipBlanks s, lineEnd? s with
    | [], _ => some []
    | _, some r => statements? fuel r
    | s, none => do
      let (first, s) ← statement? s
      let r ← lineEnd? s
      let rest ← statements? fuel r
      some (first :: rest)

/-- The table that a document denotes, if it is written correctly. -/
def read? (s : Text) : Option Toml := do
  let s := (Text.after? ['\ufeff'] s).getD s
  ofStatements? (← statements? (s.length + 1) s)

end Formdoc.Toml
