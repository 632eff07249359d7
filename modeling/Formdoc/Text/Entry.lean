/-
Lines of the form `key: value`.

A key is a row of word characters, at least one.  `keyed?` cuts a line at the
colon behind its key (`keyed?_eq_some_iff`).
-/
import Formdoc.Text.Lines

namespace Formdoc.Text

/-- A key: word characters, at least one. -/
def isKey (s : Text) : Bool :=
  !s.isEmpty && s.all isWordChar

/-- The key of a line and what follows the colon behind it. -/
def keyed? (line : Text) : Option (Text × Text) :=
  match line.takeWhile isWordChar, line.dropWhile isWordChar with
  | [], _ => none
  | key, ':' :: tail => some (key, tail)
  | _, _ => none

/-- The key of a line and what follows the colon, which is not nothing. -/
def keyedValue? (line : Text) : Option (Text × Text) :=
  (keyed? line).filter fun p => !p.2.isEmpty

theorem keyed?_eq_some_iff {line key tail : Text} :
    keyed? line = some (key, tail) ↔ isKey key = true ∧ line = key ++ ':' :: tail := by
  constructor
  · intro h
    have hall : (line.takeWhile isWordChar).all isWordChar = true := List.all_takeWhile
    have happ : line.takeWhile isWordChar ++ line.dropWhile isWordChar = line :=
      List.takeWhile_append_dropWhile
    unfold keyed? at h
    generalize line.takeWhile isWordChar = k at h hall happ
    generalize line.dropWhile isWordChar = d at h happ
    split at h
    · cases h
    · rename_i hne
      cases h
      refine ⟨?_, happ.symm⟩
      cases hk : key with
      | nil => exact absurd hk (by simpa using hne)
      | cons c r => simpa [isKey, hk] using hall
    · cases h
  · rintro ⟨hk, rfl⟩
    have hkey : key ≠ [] ∧ ∀ c ∈ key, isWordChar c = true := by
      simpa [isKey] using hk
    have hstop : isWordChar ':' = false := by decide
    have ht : (key ++ ':' :: tail).takeWhile isWordChar = key := by
      rw [List.takeWhile_append_of_pos hkey.2]
      simp [hstop]
    have hd : (key ++ ':' :: tail).dropWhile isWordChar = ':' :: tail := by
      rw [List.dropWhile_append_of_pos hkey.2]
      simp [hstop]
    unfold keyed?
    rw [ht, hd]
    cases key with
    | nil => exact absurd rfl hkey.1
    | cons c r => rfl

end Formdoc.Text
