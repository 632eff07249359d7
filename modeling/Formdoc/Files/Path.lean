/-
Paths as they are spelled, and the parts that they consist of.

A path is a text with slashes between its parts.  Two spellings of one list of
parts name the same path: repeated slashes, a slash at the end, and a part `.`
anywhere but at the front make no difference.  Paths are ordered by their
parts, one by one (`Path.compare`), so that all paths below a directory stand
together.
-/
import Formdoc.Text.Lines

namespace Formdoc

/-- A part of a path. -/
inductive PathPart where
  | root
  | current
  | parent
  | name (n : Text)
deriving DecidableEq, Repr

/-- Which of two texts comes first, character by character. -/
def Text.order : Text → Text → Ordering
  | [], [] => .eq
  | [], _ :: _ => .lt
  | _ :: _, [] => .gt
  | a :: s, b :: t => (compare a.toNat b.toNat).then (Text.order s t)

/-- Which of two parts comes first: the root, then `.`, then `..`, then the names. -/
def PathPart.order : PathPart → PathPart → Ordering
  | root, root => .eq
  | root, _ => .lt
  | _, root => .gt
  | current, current => .eq
  | current, _ => .lt
  | _, current => .gt
  | parent, parent => .eq
  | parent, _ => .lt
  | _, parent => .gt
  | name a, name b => Text.order a b

/-- Which of two lists of parts comes first. -/
def orderParts : List PathPart → List PathPart → Ordering
  | [], [] => .eq
  | [], _ :: _ => .lt
  | _ :: _, [] => .gt
  | a :: s, b :: t => (a.order b).then (orderParts s t)

namespace Path

/-- The part that a stretch between slashes is, anywhere but at the front. -/
def innerPart? (s : Text) : Option PathPart :=
  if s = [] ∨ s = ['.'] then none
  else if s = ['.', '.'] then some .parent
  else some (.name s)

/-- The parts of a path. -/
def parts (path : Text) : List PathPart :=
  match Text.split '/' path with
  | [] => []
  | first :: rest =>
    let front : List PathPart :=
      match first, rest with
      | [], _ :: _ => [.root]
      | ['.'], _ => [.current]
      | s, _ => (innerPart? s).toList
    front ++ rest.filterMap innerPart?

/-- One path comes before another, or names the same. -/
def le (a b : Text) : Bool :=
  (orderParts (parts a) (parts b)).isLE

/-- A path below another, or the second alone if it starts at the root. -/
def join (base path : Text) : Text :=
  match path with
  | '/' :: _ => path
  | _ =>
    match base.getLast? with
    | none => path
    | some c => if c = '/' then base ++ path else base ++ '/' :: path

/-- The last part of a path, if it is a name. -/
def fileName? (path : Text) : Option Text :=
  match (parts path).getLast? with
  | some (.name n) => some n
  | _ => none

/-- What follows the last point of a file's name. A point at the front does not count. -/
def extension? (path : Text) : Option Text := do
  let n ← fileName? path
  let ending := (n.reverse.takeWhile (· != '.')).reverse
  if ending.length + 1 < n.length then some ending else none

/-- The paths in order. Paths that name the same keep their order. -/
def sort (paths : List Text) : List Text :=
  paths.mergeSort le

end Path

end Formdoc
