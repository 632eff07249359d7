/-
The tokens of a YAML text.

Most tokens are what one sees: the marks of flow collections, the dash of an
item, the colon in front of a value, and scalars.  Three are never written:
`blockSequence` and `blockMapping` stand where a collection begins whose
entries are told apart by their column, and `blockEnd` where the text goes back
to the left.  The token `key` is written as a question mark, but mostly only
the colon behind a key tells that it is one.

The `Lexer` therefore remembers where a key may have started.  When a colon
comes, it puts the token `key` there, and in a block opens a mapping in the
key's column if none is open.  A key lies within one line, and its colon at
most `KeyStart.limit` bytes behind its front.  In a block a key can start only
at the front of a line or behind the mark of an entry (`keyAllowed`), and where
the column is that of the innermost collection it must.
-/
import Formdoc.Yaml.Folding

namespace Formdoc.Yaml

/-- A token. -/
inductive Token where
  | documentStart
  | documentEnd
  | blockSequence
  | blockMapping
  | blockEnd
  | flowSequence
  | flowSequenceEnd
  | flowMapping
  | flowMappingEnd
  | comma
  | item
  | key
  | value
  | scalar (s : Text) (isPlain : Bool)
deriving DecidableEq, Repr

/-- A place where a key may have started: the tokens in front of it back to the last such place, the
latest first, its first character, and whether something else than a key is an error. -/
structure KeyStart where
  front : List Token
  spot : Spot
  isRequired : Bool
deriving DecidableEq, Repr

/-- What has been read of a text: its tokens back to the last place where a key may have started,
the latest first, the columns of the open block collections, the innermost first, where a key may
have started in the innermost flow collection and in those around it, and whether one may start
now. Outside of flow collections `outer` is empty. -/
structure Lexer where
  tokens : List Token := []
  columns : List Nat := []
  key : Option KeyStart := none
  outer : List (Option KeyStart) := []
  keyAllowed : Bool := true
deriving DecidableEq, Repr

namespace KeyStart

/-- The number of bytes from the front of a key within which its colon must stand. -/
def limit : Nat := 1024

/-- The colon at `p` belongs to the key that started here. -/
def reaches (k : KeyStart) (p : Spot) : Bool :=
  p.line == k.spot.line && decide (p.offset ≤ k.spot.offset + limit)

end KeyStart

namespace Lexer

/-- The lexer is in a flow collection. -/
def inFlow (l : Lexer) : Bool :=
  !l.outer.isEmpty

/-- The least column right of the innermost block collection. -/
def least (l : Lexer) : Nat :=
  match l.columns with
  | [] => 0
  | n :: _ => n + 1

/-- One more token. -/
def push (t : Token) (l : Lexer) : Lexer :=
  { l with tokens := t :: l.tokens }

/-- A block collection in the given column would be a new one. -/
def opensBlock (column : Nat) (l : Lexer) : Bool :=
  !l.inFlow && decide (l.least ≤ column)

/-- A block collection in the given column, if none is open there. -/
def openBlock (t : Token) (column : Nat) (l : Lexer) : Lexer :=
  if l.opensBlock column then { l.push t with columns := column :: l.columns } else l

/-- The block collections are closed, from the innermost on, whose column satisfies `p`. -/
def closeBlocks (p : Nat → Bool) (l : Lexer) : Lexer :=
  if l.inFlow then l
  else
    { l with
      tokens := (l.columns.takeWhile p).map (fun _ => Token.blockEnd) ++ l.tokens
      columns := l.columns.dropWhile p }

/-- No key has started, or none that is required. -/
def dropKey? (l : Lexer) : Option Lexer :=
  match l.key with
  | some k =>
    if k.isRequired then none else some { l with tokens := l.tokens ++ k.front, key := none }
  | none => some l

/-- A key may start with the given character. -/
def noteKey? (p : Spot) (l : Lexer) : Option Lexer :=
  if l.keyAllowed then
    l.dropKey?.map fun l =>
      { l with
        tokens := []
        key := some ⟨l.tokens, p, !l.inFlow && l.columns.head? == some p.column⟩ }
  else some l

/-- The mark of a document. It closes every block. -/
def mark? (t : Token) (l : Lexer) : Option Lexer :=
  ((l.closeBlocks fun _ => true).push t).dropKey?.map ({ · with keyAllowed := false })

/-- A flow collection begins. -/
def flowStart? (t : Token) (p : Spot) (l : Lexer) : Option Lexer :=
  (l.noteKey? p).map fun l =>
    { l.push t with key := none, outer := l.key :: l.outer, keyAllowed := true }

/-- A flow collection ends. -/
def flowEnd? (t : Token) (l : Lexer) : Option Lexer :=
  l.dropKey?.map fun l =>
    { l.push t with key := l.outer.head?.join, outer := l.outer.tail, keyAllowed := false }

/-- A comma between the entries of a flow collection. -/
def comma? (l : Lexer) : Option Lexer :=
  l.dropKey?.map fun l => { l.push .comma with keyAllowed := true }

/-- A mark in front of an entry of a block collection. In a flow collection it is a mere token,
behind which a key starts only if `inside` says so. -/
def entryMark? (collection t : Token) (inside : Bool) (p : Spot) (l : Lexer) : Option Lexer :=
  if l.inFlow || l.keyAllowed then
    ((l.openBlock collection p.column).push t).dropKey?.map
      ({ · with keyAllowed := inside || !l.inFlow })
  else none

/-- A colon, behind the key that has started, or else behind none. -/
def colon? (p : Spot) (l : Lexer) : Option Lexer :=
  match l.key with
  | some k =>
    if k.reaches p then
      let front := { l with tokens := k.front }
      let opened := (front.openBlock .blockMapping k.spot.column).push .key
      some
        { opened with
          tokens := .value :: (l.tokens ++ opened.tokens)
          key := none
          keyAllowed := false }
    else l.entryMark? .blockMapping .value false p
  | none => l.entryMark? .blockMapping .value false p

/-- A scalar in quotation marks, and what follows. -/
def quotedScalar? (p : Spot) (ps : List Spot) (l : Lexer) : Option (Lexer × List Spot) := do
  let l ← l.noteKey? p
  let (s, ps) ← quoted? p.char (ps.length + 1) [] Gap.empty ps
  some ({ l.push (.scalar s false) with keyAllowed := false }, ps)

/-- A plain scalar, and what follows. If it ends with its line, a key may start behind it. -/
def plainScalar? (p : Spot) (ps : List Spot) (l : Lexer) : Option (Lexer × List Spot) := do
  let l ← l.noteKey? p
  let (s, isBroken, ps) ← plain? l.inFlow l.least [] Gap.empty (p :: ps)
  some ({ l.push (.scalar s true) with keyAllowed := isBroken }, ps)

/-- The token that starts with the character `p`, and what follows. -/
def token? (p : Spot) (ps : List Spot) (l : Lexer) : Option (Lexer × List Spot) :=
  let l := l.closeBlocks (p.column < ·)
  let isWord := endsWord ps
  if isMark '-' (p :: ps) then (l.mark? .documentStart).map (·, ps.drop 2)
  else if isMark '.' (p :: ps) then (l.mark? .documentEnd).map (·, ps.drop 2)
  else
    match p.char with
    | '[' => (l.flowStart? .flowSequence p).map (·, ps)
    | '\x7b' => (l.flowStart? .flowMapping p).map (·, ps)
    | ']' => (l.flowEnd? .flowSequenceEnd).map (·, ps)
    | '\x7d' => (l.flowEnd? .flowMappingEnd).map (·, ps)
    | ',' => l.comma?.map (·, ps)
    | '\'' | '"' => l.quotedScalar? p ps
    | c =>
      if c = '-' ∧ isWord then (l.entryMark? .blockSequence .item true p).map (·, ps)
      else if c = '?' ∧ (l.inFlow ∨ isWord) then
        (l.entryMark? .blockMapping .key false p).map (·, ps)
      else if c = ':' ∧ (l.inFlow ∨ isWord) then (l.colon? p).map (·, ps)
      else if startsPlain l.inFlow (p :: ps) then l.plainScalar? p ps
      else none

/-- Where the next token starts, behind blanks, comments and the ends of lines, and whether a key
may start there. Where a key may start in a block, a tab is no blank. -/
def skip (inFlow : Bool) (keyAllowed : Bool) (inComment : Bool) : List Spot → Bool × List Spot
  | [] => (keyAllowed, [])
  | p :: ps =>
    if endsLine p.char then skip inFlow (keyAllowed || !inFlow) false ps
    else if inComment || p.char == ' ' || (p.char == '\t' && (inFlow || !keyAllowed)) then
      skip inFlow keyAllowed inComment ps
    else if p.char = '#' then skip inFlow keyAllowed true ps
    else (keyAllowed, p :: ps)

/-- The tokens up to the end of the text, the latest first. No flow collection must be open at the
end. -/
def run? : Nat → List Spot → Lexer → Option (List Token)
  | 0, _, _ => none
  | fuel + 1, ps, l =>
    let (keyAllowed, ps) := skip l.inFlow l.keyAllowed false ps
    match ps with
    | [] => if l.inFlow then none else (l.closeBlocks fun _ => true).dropKey?.map Lexer.tokens
    | p :: ps => do
      let (l, ps) ← { l with keyAllowed := keyAllowed }.token? p ps
      run? fuel ps l

end Lexer

/-- The tokens of a text. -/
def Token.ofText? (s : Text) : Option (List Token) :=
  if s.all isPrintable then
    (Lexer.run? (s.length + 1) (spots s) {}).map List.reverse
  else none

end Formdoc.Yaml
