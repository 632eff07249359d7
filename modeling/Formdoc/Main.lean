/-
The program: it takes a picture of the working directory, does what its words
ask for, tells what there is to tell, and writes the files that have changed.

A symbolic link is taken for what it leads to, unless that is a directory it
stands in.  What cannot be read is left out of the picture.
-/
import Formdoc.Command.Line

namespace Formdoc

/-- Directories nested deeper than this are left out of the picture. -/
def nestingLimit : Nat := 256

/-- The tree with what stands at an entry of a directory. The real paths of the directories around
it are `inside`. -/
def addEntry : Nat → List String → Location → FileTree → IO.FS.DirEntry → IO FileTree
  | 0, _, _, t, _ => return t
  | depth + 1, inside, l, t, e => do
    let here := l ++ [e.fileName.toList]
    try
      if ← e.path.isDir then
        let real := toString (← IO.FS.realPath e.path)
        if inside.contains real then return t
        (← e.path.readDir).foldlM (addEntry depth (real :: inside) here) (t.set here .directory)
      else return t.set here (.file (.ofBytes (← IO.FS.readBinFile e.path)))
    catch _ => return t

/-- The picture of the working directory. -/
def picture : IO FileTree := do
  let top ← IO.currentDir
  let real := toString (← IO.FS.realPath top)
  (← top.readDir).foldlM (addEntry nestingLimit [real] []) .empty

/-- Writes the files whose text differs from the picture. -/
def writeChanges (old new : FileTree) : IO Unit := do
  for (l, e) in new.entries.entries do
    match e with
    | .file (.text s) =>
      if old.get? l ≠ some e then
        IO.FS.writeFile ("/".intercalate (l.map String.ofList)) (String.ofList s)
    | _ => pure ()

end Formdoc

open Formdoc in
/-- Does what the words ask for. If they ask for nothing, the exit code is 2. -/
def main (args : List String) : IO UInt32 := do
  match Request.read? (args.map String.toList) with
  | none =>
    IO.eprintln "usage: xtform [-c PATH] [-v] COMMAND [OPERANDS]"
    return 2
  | some r =>
    let files ← picture
    let o := r.perform files
    IO.print (String.ofList (Event.texts r.level o.events))
    writeChanges files o.files
    if let some f := o.failure then
      IO.eprintln ("Error: " ++ ": ".intercalate (f.chain.map String.ofList))
    return o.exitCode.toUInt32
