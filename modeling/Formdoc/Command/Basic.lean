/-
The commands, and what running one gives.

A command runs on a tree of files, and its outcome is what it tells, the files
that it leaves and, if it fails, why.  Only `format`, `set` and `insert` write,
and they write one file, once, and as the last thing before they say so.
-/
import Formdoc.Command.Failure
import Formdoc.Command.Outline
import Formdoc.Document.View
import Formdoc.Files.Documents
import Formdoc.Json.Reader

namespace Formdoc

/-- What running a command gives. -/
structure Outcome where
  events : List Event
  failure : Option Failure
  files : FileTree

namespace Outcome

/-- A failure that leaves the files as they are. -/
def fail (files : FileTree) (events : List Event) (f : Failure) : Outcome :=
  ⟨events, some f, files⟩

/-- A success that leaves the files as they are. -/
def done (files : FileTree) (events : List Event) : Outcome :=
  ⟨events, none, files⟩

/-- The number with which the program ends: 0 for success and 1 for failure. -/
def exitCode (o : Outcome) : Nat :=
  if o.failure.isSome then 1 else 0

/-- The outcome with events in front. -/
def after (events : List Event) (o : Outcome) : Outcome :=
  { o with events := events ++ o.events }

/-- A text is written to the file at a path, and `message` logged behind the events so far. -/
def write (files : FileTree) (events : List Event) (path content message : Text) : Outcome :=
  match files.write path content with
  | .ok files => ⟨events ++ [.log .info message], none, files⟩
  | .error e => fail files events (.unwritable path e)

end Outcome

/-- A command and its operands. -/
inductive Command where
  | parse (file : Text) (asJson : Bool)
  | check (paths : List Text)
  | format (file : Text) (checkOnly : Bool)
  | set (file field value : Text)
  | insert (file component : Text)
  | body (file : Text)
  | palette (asJson : Bool)
  | watch (dir : Option Text)
deriving DecidableEq, Repr

/-! ### Events -/

/-- What is logged about a file. -/
def FileReport.events (r : FileReport) : List Event :=
  r.diagnostics.map fun d =>
    .log (if d.isError then .error else .warn) (r.path ++ ": ".toList ++ d.display)

namespace Palette

/-- What is logged when loading of the palette starts. -/
def started (root : Text) : Event :=
  .log .debug ("Loading component registry from ".toList ++ file root)

/-- What is logged about a loaded palette. -/
def events (p : Palette) : List Event :=
  (p.registry.tabs.map fun t =>
    .log .debug ("Tab \"".toList ++ t.name ++ "\": ".toList ++ digitsOf t.components.length ++
      " components".toList)) ++
  (p.issues.map fun i => .log .warn (i.file ++ ": ".toList ++ i.message)) ++
  [.log .info ("Loaded ".toList ++ digitsOf p.registry.size ++ " components in ".toList ++
    digitsOf p.registry.tabs.length ++ " tabs".toList)]

/-- The line of a tab. -/
def tabLine (t : Tab) : Text :=
  match t.description with
  | some d => t.name ++ " - ".toList ++ d
  | none => t.name

/-- The line of a component. -/
def componentLine (m : Manifest) : Text :=
  ' ' :: ' ' :: m.icon.getD [' '] ++ ' ' :: padEnd 20 m.id ++ ' ' :: m.label

/-- The lines of a palette. -/
def lines (r : Registry) : List Text :=
  r.tabs.flatMap fun t => tabLine t :: t.components.map componentLine

end Palette

namespace Command

/-! ### Commands that only read -/

/-- Show the outline of a document, or the reading of it as JSON. -/
def runParse (t : FileTree) (file : Text) (asJson : Bool) : Outcome :=
  match t.read file with
  | .error e => .fail t [] (.unreadable file e)
  | .ok source =>
    let r := Document.read source
    if asJson then .done t [.line r.toJson.pretty]
    else
      .done t ((Outline.lines r.document).map .line ++ FileReport.events ⟨file, r.diagnostics⟩)

/-- Show the body of a document. -/
def runBody (t : FileTree) (file : Text) : Outcome :=
  match t.read file with
  | .error e => .fail t [] (.unreadable file e)
  | .ok source =>
    let r := Document.read source
    .done t (.line (Body.write r.document.body) :: FileReport.events ⟨file, r.diagnostics⟩)

/-- Check the documents that some paths stand for. -/
def runCheck (t : FileTree) (paths : List Text) : Outcome :=
  let reports := t.checkAll (t.collect paths)
  let errors := FileReport.total FileReport.errorCount reports
  let warnings := FileReport.total FileReport.warningCount reports
  let count := digitsOf reports.length
  let events :=
    .log .debug ("Checking ".toList ++ count ++ " documents".toList) ::
      reports.flatMap FileReport.events ++
      [.log .info ("Checked ".toList ++ count ++ " documents: ".toList ++ digitsOf errors ++
        " errors, ".toList ++ digitsOf warnings ++ " warnings".toList)]
  if errors = 0 then .done t events else .fail t events (.errorsFound errors)

/-- Show the palette of a workspace. -/
def runPalette (t : FileTree) (root : Text) (asJson : Bool) : Outcome :=
  match Palette.load t root with
  | .error e => .fail t [Palette.started root] (.palette e)
  | .ok p =>
    .done t (Palette.started root :: p.events ++
      if asJson then [.line p.registry.toJson.pretty]
      else (Palette.lines p.registry).map .line)

/-- Start to watch a directory. -/
def runWatch (t : FileTree) (dir : Text) : Outcome :=
  if t.exists? dir then
    .done t [.log .info ("Watching ".toList ++ dir ++ " for changes (Ctrl+C to stop)".toList)]
  else .fail t [] (.noDirectory dir)

/-! ### Commands that write -/

/-- Write a document anew, or only see whether that would change it. A document with errors is
left alone. -/
def runFormat (t : FileTree) (file : Text) (checkOnly : Bool) : Outcome :=
  match t.read file with
  | .error e => .fail t [] (.unreadable file e)
  | .ok source =>
    let r := Document.read source
    let events := FileReport.events ⟨file, r.diagnostics⟩
    match r.result with
    | .error errors => .fail t events (.invalid errors)
    | .ok d =>
      if d.write = source then
        .done t (events ++ [.log .info (file ++ " is already formatted".toList)])
      else if checkOnly then .fail t events (.unformatted file)
      else .write t events file d.write ("Formatted ".toList ++ file)

/-- The value that an operand stands for: what it denotes as JSON, or itself as a text. -/
def operandValue (s : Text) : Json :=
  (Json.read? s).getD (.text s)

/-- Set the value of a field. -/
def runSet (t : FileTree) (file field value : Text) : Outcome :=
  match t.read file with
  | .error e => .fail t [] (.unreadable file e)
  | .ok source =>
    let v := operandValue value
    let events := [.log .debug ("Setting ".toList ++ field ++ " = ".toList ++ v.compact)]
    match Document.setField? source field v with
    | .error e => .fail t events (.refused file e)
    | .ok changed =>
      .write t events file changed ("Updated ".toList ++ field ++ " in ".toList ++ file)

/-- Insert the template of a component. -/
def runInsert (t : FileTree) (root file component : Text) : Outcome :=
  match Palette.load t root with
  | .error e => .fail t [Palette.started root] (.palette e)
  | .ok p =>
    let events := Palette.started root :: p.events
    match p.registry.get? component with
    | none => .fail t events (.unknownComponent component)
    | some m =>
      match t.read file with
      | .error e => .fail t events (.unreadable file e)
      | .ok source =>
        .write t events file (Document.insertText source m.template)
          ("Inserted ".toList ++ m.label ++ " into ".toList ++ file)

/-- Run a command. Where no path is given, those of the settings are checked, and the first of
them is watched. -/
def run (s : Settings) (t : FileTree) : Command → Outcome
  | parse file asJson => runParse t file asJson
  | check paths => runCheck t (if paths.isEmpty then s.dirs else paths)
  | format file checkOnly => runFormat t file checkOnly
  | set file field value => runSet t file field value
  | insert file component => runInsert t s.root file component
  | body file => runBody t file
  | palette asJson => runPalette t s.root asJson
  | watch dir => runWatch t (dir.getD (s.dirs.head?.getD ['.']))

end Command

end Formdoc
