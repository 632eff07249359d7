/-
Reading YAML text.

A text is read from its tokens: the blocks and flow collections that they
delimit are the sequences and mappings of the value.  A text holds one document,
which may stand between the marks `---` and `...`.

Where a value may be left out, `blank` stands for it: behind a dash or a colon
that no value follows, and for a key of a flow mapping that has no colon.  The
items of a sequence may stand in the column of the key to which they belong;
such a sequence has no tokens at its ends, and `blockItems?` reads both kinds.
`fuel` bounds the number of steps.
-/
import Formdoc.Yaml.Token
import Formdoc.Yaml.Value

namespace Formdoc.Yaml

mutual

/-- The value at the front of the tokens. -/
def node? : Nat → List Token → Option (Yaml × List Token)
  | 0, _ => none
  | fuel + 1, ts =>
    match ts with
    | .scalar s isPlain :: ts => some (scalar s isPlain, ts)
    | .flowSequence :: ts => (flowItems? fuel ts).map fun p => (sequence p.1, p.2)
    | .flowMapping :: ts => (flowPairs? fuel ts).map fun p => (mapping p.1, p.2)
    | .blockMapping :: ts => (blockPairs? fuel ts).map fun p => (mapping p.1, p.2)
    | .blockSequence :: ts => do
      let (vs, ts) ← blockItems? fuel ts
      match ts with
      | .blockEnd :: ts => some (sequence vs, ts)
      | _ => none
    | _ => none

/-- The items of a block sequence. -/
def blockItems? : Nat → List Token → Option (List Yaml × List Token)
  | 0, _ => none
  | fuel + 1, ts =>
    match ts with
    | .item :: ts => do
      let (v, ts) ← match ts with
        | .item :: _ => some (blank, ts)
        | ts => blockNode? fuel ts
      let (vs, ts) ← blockItems? fuel ts
      some (v :: vs, ts)
    | ts => some ([], ts)

/-- The pairs of a block mapping up to its end. -/
def blockPairs? : Nat → List Token → Option (List (Yaml × Yaml) × List Token)
  | 0, _ => none
  | fuel + 1, ts =>
    match ts with
    | .key :: ts => do
      let (k, ts) ← blockNode? fuel ts
      let (v, ts) ← match ts with
        | .value :: ts => blockNode? fuel ts
        | ts => some (blank, ts)
      let (es, ts) ← blockPairs? fuel ts
      some ((k, v) :: es, ts)
    | .blockEnd :: ts => some ([], ts)
    | _ => none

/-- A value in a block, which may be left out, or may be a sequence without tokens at its ends. -/
def blockNode? : Nat → List Token → Option (Yaml × List Token)
  | 0, _ => none
  | fuel + 1, ts =>
    match ts with
    | .key :: _ | .value :: _ | .blockEnd :: _ => some (blank, ts)
    | .item :: _ => (blockItems? fuel ts).map fun p => (sequence p.1, p.2)
    | ts => node? fuel ts

/-- The items of a flow sequence up to its end. A key and its value are a mapping of one pair. If
nothing stands behind a key's mark, the token that follows is passed over. -/
def flowItems? : Nat → List Token → Option (List Yaml × List Token)
  | 0, _ => none
  | fuel + 1, ts =>
    match ts with
    | .flowSequenceEnd :: ts => some ([], ts)
    | ts => do
      let (v, ts) ← match ts with
        | .key :: ts => do
          let (k, ts) ← match ts with
            | .value :: ts | .comma :: ts | .flowSequenceEnd :: ts => some (blank, ts)
            | ts => node? fuel ts
          let (w, ts) ← flowValue? fuel ts
          some (mapping [(k, w)], ts)
        | ts => node? fuel ts
      match ts with
      | .comma :: ts =>
        let (vs, ts) ← flowItems? fuel ts
        some (v :: vs, ts)
      | .flowSequenceEnd :: ts => some ([v], ts)
      | _ => none

/-- The pairs of a flow mapping up to its end. -/
def flowPairs? : Nat → List Token → Option (List (Yaml × Yaml) × List Token)
  | 0, _ => none
  | fuel + 1, ts =>
    match ts with
    | .flowMappingEnd :: ts => some ([], ts)
    | ts => do
      let ((k, v), ts) ← match ts with
        | .key :: ts => do
          let (k, ts) ← flowNode? fuel ts
          let (v, ts) ← flowValue? fuel ts
          some ((k, v), ts)
        | ts => (node? fuel ts).map fun p => ((p.1, blank), p.2)
      match ts with
      | .comma :: ts =>
        let (es, ts) ← flowPairs? fuel ts
        some ((k, v) :: es, ts)
      | .flowMappingEnd :: ts => some ([(k, v)], ts)
      | _ => none

/-- A value in a flow collection, which may be left out. -/
def flowNode? : Nat → List Token → Option (Yaml × List Token)
  | 0, _ => none
  | fuel + 1, ts =>
    match ts with
    | .value :: _ | .comma :: _ | .flowSequenceEnd :: _ | .flowMappingEnd :: _ => some (blank, ts)
    | ts => node? fuel ts

/-- The value behind a key of a flow collection. It is left out if there is no colon. -/
def flowValue? : Nat → List Token → Option (Yaml × List Token)
  | 0, _ => none
  | fuel + 1, ts =>
    match ts with
    | .value :: ts => flowNode? fuel ts
    | ts => some (blank, ts)

end

/-- The value of a document behind its first mark. -/
def document? (fuel : Nat) : List Token → Option (Yaml × List Token)
  | [] => some (blank, [])
  | .documentEnd :: ts => some (blank, .documentEnd :: ts)
  | ts => node? fuel ts

/-- The value of a document. -/
def ofTokens? (ts : List Token) : Option Yaml := do
  let fuel := 4 * ts.length + 4
  let (v, ts) ← match ts with
    | [] => some (blank, [])
    | .documentStart :: ts => document? fuel ts
    | ts => node? fuel ts
  if ts.all (· == .documentEnd) then some v else none

/-- The value that a text denotes, if it is written as the reader knows it. -/
def read? (s : Text) : Option Yaml :=
  (Token.ofText? s).bind ofTokens?

end Formdoc.Yaml
