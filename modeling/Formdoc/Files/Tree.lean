/-
A tree of files, and what its paths lead to.

A tree is a map from locations to entries: files, directories and symbolic
links.  A location is the list of names that lead to an entry from the tree's
root, which is the working directory.  A file holds text, or bytes that are no
text.  `locate` follows a path part by part, and the links on the way; a slash
or a part `.` behind a file is an error, as is a part behind anything that is
no directory.
-/
import Formdoc.Files.Path
import Formdoc.OrderedMap

namespace Formdoc

/-- The names that lead to an entry. -/
abbrev Location := List Text

/-- What is in a file: text, or bytes that are no UTF-8 text. -/
inductive Content where
  | text (t : Text)
  | bytes (b : List UInt8)
deriving DecidableEq, Repr

/-- What a file with the given bytes holds. -/
def Content.ofBytes (bytes : ByteArray) : Content :=
  match String.fromUTF8? bytes with
  | some s => text s.toList
  | none => .bytes bytes.toList

/-- An entry of a tree. -/
inductive Entry where
  | file (content : Content)
  | directory
  | link (target : Text)
deriving DecidableEq, Repr

/-- Why a path cannot be read. -/
inductive FileError where
  | missing
  | isDirectory
  | notDirectory
  | notText
  | tooManyLinks
deriving DecidableEq, Repr

/-- The wording of a file error. -/
def FileError.message : FileError → Text
  | missing => "No such file or directory (os error 2)".toList
  | isDirectory => "Is a directory (os error 21)".toList
  | notDirectory => "Not a directory (os error 20)".toList
  | notText => "stream did not contain valid UTF-8".toList
  | tooManyLinks => "Too many levels of symbolic links (os error 40)".toList

/-- A tree of files. -/
structure FileTree where
  entries : OrderedMap Location Entry

namespace FileTree

/-- The tree with no entry but its root. -/
def empty : FileTree := ⟨.empty⟩

/-- The entry at a location. The root is a directory. -/
def get? (t : FileTree) (l : Location) : Option Entry :=
  if l = [] then some .directory else t.entries.get? l

/-- The tree with an entry put at a location. -/
def set (t : FileTree) (l : Location) (e : Entry) : FileTree :=
  ⟨t.entries.insert l e⟩

/-- The names in the directory at a location. -/
def names (t : FileTree) (l : Location) : List Text :=
  t.entries.keys.filterMap fun k =>
    match k.getLast? with
    | some n => if k.dropLast = l then some n else none
    | none => none

/-- The most links that are followed on the way to one entry. -/
def linkLimit : Nat := 40

/-- The stretches of a path between slashes. A slash at the end asks for a directory. -/
def steps (path : Text) : List Text :=
  let stretches := Text.split '/' path
  let asked := stretches.filter (· ≠ [])
  if stretches.getLast? = some [] then asked ++ [['.']] else asked

/-- The location where steps lead from a location. At a link `onLink` goes on, from where the
link's target starts and with the target's steps in front of those that are left. -/
def walk (t : FileTree) (onLink : Location → List Text → Except FileError Location) :
    Location → List Text → Except FileError Location
  | l, [] => .ok l
  | l, s :: rest =>
    match t.get? l with
    | some .directory =>
      if s = ['.'] then t.walk onLink l rest
      else if s = ['.', '.'] then t.walk onLink l.dropLast rest
      else
        match t.get? (l ++ [s]) with
        | none => .error .missing
        | some (.link target) =>
          if target = [] then .error .missing
          else onLink (if target.head? = some '/' then [] else l) (steps target ++ rest)
        | some _ => t.walk onLink (l ++ [s]) rest
    | _ => .error .notDirectory

/-- The location where steps lead from a location, with at most `links` links on the way. -/
def follow (t : FileTree) : (links : Nat) → Location → List Text → Except FileError Location
  | 0 => t.walk fun _ _ => .error .tooManyLinks
  | links + 1 => t.walk (t.follow links)

/-- The location that a path leads to. -/
def locate (t : FileTree) (path : Text) : Except FileError Location :=
  if path = [] then .error .missing else t.follow linkLimit [] (steps path)

/-- The entry that a path leads to. -/
def entryAt? (t : FileTree) (path : Text) : Option Entry :=
  match t.locate path with
  | .ok l => t.get? l
  | .error _ => none

/-- The path leads to an entry. -/
def exists? (t : FileTree) (path : Text) : Bool :=
  (t.entryAt? path).isSome

/-- The path leads to a file. -/
def isFile (t : FileTree) (path : Text) : Bool :=
  match t.entryAt? path with
  | some (.file _) => true
  | _ => false

/-- The text of the file that a path leads to. -/
def read (t : FileTree) (path : Text) : Except FileError Text := do
  match t.get? (← t.locate path) with
  | some (.file (.text s)) => .ok s
  | some (.file (.bytes _)) => .error .notText
  | some .directory => .error .isDirectory
  | _ => .error .missing

/-- The tree with a new text in the file that a path leads to. -/
def write (t : FileTree) (path : Text) (s : Text) : Except FileError FileTree := do
  let l ← t.locate path
  match t.get? l with
  | some .directory => .error .isDirectory
  | _ => .ok (t.set l (.file (.text s)))

/-- The tree with an entry below a location, and the directories on the way. -/
def placeFrom (t : FileTree) (l : Location) : List Text → Entry → FileTree
  | [], _ => t
  | [n], e => t.set (l ++ [n]) e
  | n :: rest, e =>
    match t.follow linkLimit l [n] with
    | .ok m => t.placeFrom m rest e
    | .error _ => (t.set (l ++ [n]) .directory).placeFrom (l ++ [n]) rest e

/-- The tree with an entry at a path, and the directories on the way. -/
def place (t : FileTree) (path : Text) (e : Entry) : FileTree :=
  t.placeFrom [] ((steps path).filter (· ≠ ['.'])) e

end FileTree

end Formdoc
