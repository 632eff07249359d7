/-
Loading the palette from a tree of files.

The palette's file and the manifests that it lists stand in one directory of
the workspace.  The palette is loaded tab by tab.  A manifest that cannot be
read is left out of its tab, and a component whose id is taken stays in it but
is not found under the id; both are issues, and every issue is an error.  Only
the palette's file itself can keep the palette from being loaded.
-/
import Formdoc.Diagnostic
import Formdoc.Files.Tree
import Formdoc.Palette.Registry
import Formdoc.Palette.Source

namespace Formdoc

/-- Something wrong with a manifest, its path, and how serious that is. -/
structure Issue where
  message : Text
  file : Text
  severity : Severity
deriving DecidableEq, Repr

/-- An error about the manifest at a path. -/
def Issue.error (message file : Text) : Issue :=
  ⟨message, file, .error⟩

/-- A palette and what is wrong with its manifests. -/
structure Palette where
  registry : Registry
  issues : List Issue

/-- Why a palette is not loaded. -/
inductive PaletteError where
  | notFound (path : Text)
  | unreadable (path : Text) (cause : FileError)
  | malformed (path : Text)
deriving DecidableEq, Repr

/-- The wording of an error. -/
def PaletteError.message : PaletteError → Text
  | notFound path => "Registry file not found: ".toList ++ path
  | unreadable path cause => "Failed to read ".toList ++ path ++ ": ".toList ++ cause.message
  | malformed path => "Failed to parse ".toList ++ path

namespace Palette

/-- The directory of the palette in a workspace. -/
def directory (root : Text) : Text :=
  Path.join root "components".toList

/-- The palette's file in a workspace. -/
def file (root : Text) : Text :=
  Path.join (directory root) "registry.yml".toList

/-- The manifest at a path in the palette's directory, or what is wrong with it. -/
def readManifest (t : FileTree) (root path : Text) : Except Text Manifest :=
  match t.read (Path.join (directory root) path) with
  | .error .missing => .error ("Component manifest not found: ".toList ++ path)
  | .error e =>
    .error ("Failed to load component: ".toList ++ path ++ " - ".toList ++ e.message)
  | .ok content =>
    match Manifest.read content with
    | .ok m => .ok m
    | .error f => .error f.message

/-- The manifests that can be read among those at the given paths, each with its path. -/
def readable (t : FileTree) (root : Text) (paths : List Text) : List (Text × Manifest) :=
  paths.filterMap fun p => (readManifest t root p).toOption.map (p, ·)

/-- The issues of the manifests that cannot be read. -/
def unreadable (t : FileTree) (root : Text) (paths : List Text) : List Issue :=
  paths.filterMap fun p =>
    match readManifest t root p with
    | .ok _ => none
    | .error message => some (Issue.error message p)

/-- The issue of a component whose id is taken. -/
def duplicate (e : Text × Manifest) : Issue :=
  Issue.error ("Duplicate component ID: ".toList ++ e.2.id) e.1

/-- The palette with one more tab. -/
def addTab (t : FileTree) (root : Text) (p : Palette) (s : TabSource) : Palette :=
  let found := readable t root s.paths
  let (registry, repeated) := p.registry.push ⟨s.name, s.description, found.map Prod.snd⟩
  ⟨registry, p.issues ++ unreadable t root s.paths ++
    (repeated.filterMap fun i => found[i]?).map duplicate⟩

/-- The palette of the given tabs. -/
def ofTabs (t : FileTree) (root : Text) (tabs : List TabSource) : Palette :=
  tabs.foldl (addTab t root) ⟨.empty, []⟩

/-- The palette of a workspace. -/
def load (t : FileTree) (root : Text) : Except PaletteError Palette :=
  if t.exists? (file root) then
    match t.read (file root) with
    | .error e => .error (.unreadable (file root) e)
    | .ok content =>
      match TabSource.read? content with
      | none => .error (.malformed (file root))
      | some tabs => .ok (ofTabs t root tabs)
  else .error (.notFound (file root))

end Palette

end Formdoc
