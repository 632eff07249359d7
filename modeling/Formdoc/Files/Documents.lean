/-
The documents among the files of a tree.

A document is a file with the extension of documents.  `below` collects the
documents in a directory and in the directories below it, and follows symbolic
links, except one that leads back to a directory it is already in.  `collect`
does so for a list of paths, where a path that leads to a file stands for that
file whatever its name, and a path that leads nowhere stands for nothing.
-/
import Formdoc.Files.Tree

namespace Formdoc

/-- The extension of documents. -/
def documentExtension : Text := "xtform".toList

/-- The path has the extension of documents. -/
def isDocumentPath (path : Text) : Bool :=
  Path.extension? path = some documentExtension

namespace FileTree

/-- The documents in the directory at `l`, spelled with `path` in front. The directories it is
in are `inside`; `depth` bounds the nesting. -/
def below (t : FileTree) : Nat → Text → Location → List Location → List Text
  | 0, _, _, _ => []
  | depth + 1, path, l, inside =>
    let here := l :: inside
    (t.names l).flatMap fun n =>
      let p := Path.join path n
      match t.get? (l ++ [n]) with
      | some .directory => t.below depth p (l ++ [n]) here
      | some (.file _) => if isDocumentPath p then [p] else []
      | some (.link _) =>
        match t.follow linkLimit l [n] with
        | .error _ => []
        | .ok m =>
          match t.get? m with
          | some .directory => if m ∈ here then [] else t.below depth p m here
          | some (.file _) => if isDocumentPath p then [p] else []
          | _ => []
      | none => []

/-- Nesting deeper than this would pass twice through one link or one directory. -/
def depthBound (t : FileTree) : Nat :=
  (t.entries.size + 1) * (t.entries.size + 2)

/-- The documents that a path stands for. -/
def documentsAt (t : FileTree) (path : Text) : List Text :=
  match t.locate path with
  | .error _ => []
  | .ok l =>
    match t.get? l with
    | some (.file _) => [path]
    | some .directory => t.below t.depthBound path l []
    | _ => []

/-- The documents that paths stand for, in order of their paths. -/
def collect (t : FileTree) (paths : List Text) : List Text :=
  Path.sort (paths.flatMap t.documentsAt)

end FileTree

end Formdoc
