/-
The settings of a workspace.

The file of settings may name the root of the palette's workspace, the
directories that are checked when none are given, and the time for which a
changed file must be quiet.  What it does not name has a default.  A file that
is not there says nothing; one that is there must be readable and correct.
-/
import Formdoc.Files.Tree
import Formdoc.Toml.Reader

namespace Formdoc

/-- The settings of a workspace. -/
structure Settings where
  root : Text
  dirs : List Text
  debounce : Nat
deriving DecidableEq, Repr

/-- Why settings cannot be had. -/
inductive SettingsError where
  | unreadable (path : Text) (cause : FileError)
  | malformed (path : Text)
deriving DecidableEq, Repr

namespace Settings

/-- The settings where nothing is said. -/
def default : Settings := ⟨['.'], [['.']], 500⟩

/-- The path of the file of settings, unless another one is given. -/
def file : Text := "xtform.toml".toList

/-- The value of the only field of a record, or the default where the record or the field is
missing. -/
def field? {α : Type} (record : Option Toml) (name : String) (value? : Toml → Option α)
    (otherwise : α) : Option α :=
  match record with
  | none => some otherwise
  | some r => do
    match (← r.record? [name.toList]).lookup name.toList with
    | none => some otherwise
    | some v => value? v

/-- The settings that a value states. -/
def ofToml? (v : Toml) : Option Settings := do
  let records ← v.record? ["registry".toList, "check".toList, "watch".toList]
  let texts? (v : Toml) : Option (List Text) := do (← v.items?).mapM Toml.text?
  let root ← field? (records.lookup "registry".toList) "root" Toml.text? default.root
  let dirs ← field? (records.lookup "check".toList) "dirs" texts? default.dirs
  let debounce ←
    field? (records.lookup "watch".toList) "debounce_ms" Toml.natural? default.debounce
  some ⟨root, dirs, debounce⟩

/-- The settings that the text of a file states. -/
def read? (content : Text) : Option Settings := do
  ofToml? (← Toml.read? content)

/-- The settings in the file at a path, if there is one. -/
def load (t : FileTree) (path : Text) : Except SettingsError Settings :=
  if t.exists? path then
    match t.read path with
    | .error e => .error (.unreadable path e)
    | .ok content =>
      match read? content with
      | some s => .ok s
      | none => .error (.malformed path)
  else .ok default

end Settings

end Formdoc
