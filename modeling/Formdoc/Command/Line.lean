/-
The command line.

In front of the command's name stand options: the path of the settings, the
wish to be told more, and the question for the version, which ends the line.
One-letter options may share a word.  Behind the name stand the command's
operands and its flag, if it has one; behind two dashes there are only
operands.  No option is given twice, and no path is empty.
-/
import Formdoc.Command.Basic
import Formdoc.Text.Search

namespace Formdoc

/-- What a command line asks for. -/
inductive Request where
  | version
  | run (settings : Text) (verbose : Bool) (command : Command)
deriving DecidableEq, Repr

/-- The word is an option or is taken for one. A dash alone is not. -/
def isOption : Text → Bool
  | '-' :: _ :: _ => true
  | _ => false

/-- The path that a word is. -/
def path? (s : Text) : Option Text :=
  if s.isEmpty then none else some s

namespace Command

/-- The operands among the words of a command, and whether its flag is there. `flagged` says
whether it was there before. -/
def operands? (flag : Option Text) (flagged : Bool) : List Text → Option (Bool × List Text)
  | [] => some (flagged, [])
  | w :: ws =>
    if w = ['-', '-'] then some (flagged, ws)
    else if flag = some w then if flagged then none else operands? flag true ws
    else if isOption w then none
    else (operands? flag flagged ws).map fun p => (p.1, w :: p.2)

/-- The flag that asks for JSON. -/
def jsonFlag : Text := "--json".toList

/-- The flag that asks for a check alone. -/
def checkFlag : Text := "--check".toList

/-- The command that a name and the words behind it stand for. -/
def ofWords? (name : Text) (words : List Text) : Option Command := do
  if name = "parse".toList then
    match ← operands? (some jsonFlag) false words with
    | (asJson, [file]) => some (parse (← path? file) asJson)
    | _ => none
  else if name = "fmt".toList then
    match ← operands? (some checkFlag) false words with
    | (checkOnly, [file]) => some (format (← path? file) checkOnly)
    | _ => none
  else if name = "palette".toList then
    match ← operands? (some jsonFlag) false words with
    | (asJson, []) => some (palette asJson)
    | _ => none
  else
    let (_, operands) ← operands? none false words
    if name = "check".toList then some (check (← operands.mapM path?))
    else
      match operands with
      | [file, field, value] =>
        if name = "set".toList then some (set (← path? file) field value) else none
      | [file, component] =>
        if name = "insert".toList then some (insert (← path? file) component) else none
      | [operand] =>
        if name = "body".toList then some (body (← path? operand))
        else if name = "watch".toList then some (watch (← path? operand))
        else none
      | [] => if name = "watch".toList then some (watch none) else none
      | _ => none

end Command

/-- The options in front of a command, as far as they have been read. -/
structure Options where
  settings : Option Text
  verbose : Bool
deriving DecidableEq, Repr

namespace Options

/-- No options. -/
def empty : Options := ⟨none, false⟩

/-- The options with the path of the settings. -/
def settings? (o : Options) (s : Text) : Option Options :=
  if o.settings.isSome then none else (path? s).map fun p => { o with settings := some p }

/-- The options with the wish to be told more. -/
def verbose? (o : Options) : Option Options :=
  if o.verbose then none else some { o with verbose := true }

/-- What a word of options comes to: more options, the wait for the path of the settings in the
next word, or the question for the version. -/
inductive Step where
  | more (o : Options)
  | await (o : Options)
  | version

/-- What the letters of a word come to. The path of the settings may follow its letter. -/
def letters? (o : Options) : Text → Option Step
  | [] => some (.more o)
  | 'v' :: s => do letters? (← o.verbose?) s
  | 'V' :: _ => some .version
  | ['c'] => some (.await o)
  | 'c' :: '=' :: s => (o.settings? s).map .more
  | 'c' :: s => (o.settings? s).map .more
  | _ => none

/-- What a word behind two dashes comes to. -/
def word? (o : Options) (s : Text) : Option Step :=
  if s = "verbose".toList then o.verbose?.map .more
  else if s = "version".toList then some .version
  else if s = "config".toList then some (.await o)
  else (Text.after? "config=".toList s).bind fun p => (o.settings? p).map .more

/-- What an option comes to. -/
def step? (o : Options) : Text → Option Step
  | '-' :: '-' :: s => o.word? s
  | '-' :: s => o.letters? s
  | _ => none

end Options

namespace Request

/-- What the rest of a command line asks for. -/
def readFrom? (o : Options) : List Text → Option Request
  | [] => none
  | w :: ws =>
    if isOption w then
      match o.step? w, ws with
      | some .version, _ => some version
      | some (.more o), ws => readFrom? o ws
      | some (.await o), p :: ws =>
        if isOption p then none else (o.settings? p).bind (readFrom? · ws)
      | _, _ => none
    else (Command.ofWords? w ws).map (run (o.settings.getD Settings.file) o.verbose)

/-- What a command line asks for, if it is one. -/
def read? (words : List Text) : Option Request :=
  readFrom? .empty words

/-- The line that answers the question for the version. -/
def versionLine : Text := "xtform 0.1.0".toList

/-- The level at which events are shown. -/
def level : Request → Level
  | run _ true _ => .debug
  | _ => .info

/-- Do what a command line asks for. -/
def perform (t : FileTree) : Request → Outcome
  | version => .done t [.line versionLine]
  | run path _ command =>
    match Settings.load t path with
    | .error e => .fail t [] (.settings e)
    | .ok s =>
      let told : List Event :=
        if t.exists? path then [.log .debug ("Loaded config from ".toList ++ path)] else []
      (command.run s t).after told

end Request

end Formdoc
