/-
TOML values, and how a table grows from the statements of a document.

A table remembers how it came to be (`Origin`), because that decides what may
still be added to it: a header `[a.b]` states the table `a.b` and implies `a`,
a key `a.b = …` makes the table `a` dotted, and a table between braces is
closed.  `Toml.descend?` goes down a path of keys, makes the tables that are
missing on the way, and changes the one at its end.  Floats and dates keep
their spelling: no setting is one.
-/
import Formdoc.Text.Blank

namespace Formdoc

/-- How a table came to be. -/
inductive Origin where
  | stated
  | implied
  | dotted
  | closed
deriving DecidableEq, Repr

/-- A TOML value. The tables of `tables` are stated one by one by headers. -/
inductive Toml where
  | text (s : Text)
  | integer (n : Int)
  | bool (b : Bool)
  | float (spelling : Text)
  | moment (spelling : Text)
  | array (items : List Toml)
  | table (origin : Origin) (entries : List (Text × Toml))
  | tables (items : List (List (Text × Toml)))
deriving Repr

namespace Toml

/-- The entries of a table. -/
abbrev Entries := List (Text × Toml)

/-- The entries with a value under a key: in the place of the entry that is there, or at the end. -/
def put (k : Text) (v : Toml) : Entries → Entries
  | [] => [(k, v)]
  | e :: es => if e.1 = k then (k, v) :: es else e :: put k v es

/-- A change to a table, which may refuse. -/
abbrev Change := Origin → Entries → Option (Origin × Entries)

/-- The table changed at the end of a path. Tables that are missing on the way are made, with the
origin `fresh`. Of tables stated one by one the last is meant. A path of dotted keys does not lead
through a table that is stated. -/
def descend? (fresh : Origin) (change : Change) : List Text → Change
  | [], origin, entries => change origin entries
  | k :: path, origin, entries =>
    match entries.lookup k with
    | none => do
      let (o, es) ← descend? fresh change path fresh []
      some (origin, put k (table o es) entries)
    | some (table o es) =>
      if o = .closed ∨ (fresh = .dotted ∧ o = .stated) then none
      else do
        let (o, es) ← descend? fresh change path o es
        some (origin, put k (table o es) entries)
    | some (tables items) =>
      match items.getLast? with
      | none => none
      | some es => do
        let (_, es) ← descend? fresh change path .stated es
        some (origin, put k (tables (items.dropLast ++ [es])) entries)
    | some _ => none

/-- A value is put under a key that is new. Behind dots, only a dotted table takes it. -/
def define (behindDots : Bool) (k : Text) (v : Toml) : Change := fun origin entries =>
  if (behindDots && origin != .dotted) || (entries.lookup k).isSome then none
  else some (origin, entries ++ [(k, v)])

/-- A header states the table under a key, which is new or was implied. -/
def stateTable (k : Text) : Change := fun origin entries =>
  match entries.lookup k with
  | none => some (origin, entries ++ [(k, table .stated [])])
  | some (table .implied es) => some (origin, put k (table .stated es) entries)
  | some _ => none

/-- A header states one more of the tables under a key. -/
def stateItem (k : Text) : Change := fun origin entries =>
  match entries.lookup k with
  | none => some (origin, entries ++ [(k, tables [[]])])
  | some (tables items) => some (origin, put k (tables (items ++ [[]])) entries)
  | some _ => none

/-- A statement of a document. Paths are not empty: the last key is given by itself. -/
inductive Statement where
  | header (path : List Text) (key : Text)
  | item (path : List Text) (key : Text)
  | entry (path : List Text) (key : Text) (value : Toml)
deriving Repr

/-- A table under construction, and the path of the table that is being stated. -/
structure Draft where
  entries : Entries
  current : List Text

/-- What a statement adds. -/
def Draft.add? (d : Draft) : Statement → Option Draft
  | .header path k => do
    let (_, es) ← descend? .implied (stateTable k) path .stated d.entries
    some ⟨es, path ++ [k]⟩
  | .item path k => do
    let (_, es) ← descend? .implied (stateItem k) path .stated d.entries
    some ⟨es, path ++ [k]⟩
  | .entry path k v => do
    let change := descend? .dotted (define (!path.isEmpty) k v) path
    let (_, es) ← descend? .implied change d.current .stated d.entries
    some { d with entries := es }

/-- The table that the statements of a document make up, if they agree with each other. -/
def ofStatements? (statements : List Statement) : Option Toml := do
  let d ← statements.foldlM Draft.add? ⟨[], []⟩
  some (table .stated d.entries)

/-- The table between braces with the given entries, each with the path of dotted keys before its
key. -/
def ofEntries? (entries : List (List Text × Text × Toml)) : Option Toml := do
  let es ← entries.foldlM (fun es e => do
    let (_, es) ← descend? .dotted (define (!e.1.isEmpty) e.2.1 e.2.2) e.1 .stated es
    some es) ([] : Entries)
  some (table .closed es)

/-! ### Views -/

/-- The text of a value. -/
def text? : Toml → Option Text
  | text s => some s
  | _ => none

/-- A whole number that is not negative. -/
def natural? : Toml → Option Nat
  | integer (.ofNat n) => some n
  | _ => none

/-- The items of a value. -/
def items? : Toml → Option (List Toml)
  | array items => some items
  | tables items => some (items.map (table .stated))
  | _ => none

/-- The values of a record by the names of its fields. A table gives them by its keys, an array in
the order of the fields, and a date counts as a table without known keys. -/
def record? (fields : List Text) : Toml → Option (List (Text × Toml))
  | table _ entries => some entries
  | moment _ => some []
  | v => v.items?.map fields.zip

end Toml

end Formdoc
