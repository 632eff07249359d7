/-
What a command tells: lines that it prints and lines that it logs.

A logged line has a level, and is shown if its level is at least as grave as
the one that is asked for.  Characters in it that would steer a terminal are
shown as escapes.
-/
import Formdoc.Text.Literal

namespace Formdoc

/-- How grave a logged line is, the gravest first. -/
inductive Level where
  | error
  | warn
  | info
  | debug
deriving DecidableEq, Repr

namespace Level

/-- The place of a level from the gravest on. -/
def rank : Level → Nat
  | error => 0
  | warn => 1
  | info => 2
  | debug => 3

/-- The word for a level. -/
def name : Level → Text
  | error => "ERROR".toList
  | warn => "WARN".toList
  | info => "INFO".toList
  | debug => "DEBUG".toList

end Level

/-- A line that a command prints or logs. -/
inductive Event where
  | line (s : Text)
  | log (level : Level) (message : Text)
deriving DecidableEq, Repr

namespace Event

/-- A character as it is logged. Those that could start or end a sequence of control are escaped. -/
def loggedChar (c : Char) : Text :=
  if ['\x07', '\x08', '\x0c', '\x1b', '\x7f'].contains c then
    ['\\', 'x'] ++ (if c.toNat < 16 then ['0'] else []) ++ Text.hexDigits c.toNat
  else if 0x80 ≤ c.toNat ∧ c.toNat ≤ 0x9f then Text.codePoint c
  else [c]

/-- The text of an event. -/
def text : Event → Text
  | line s => s ++ ['\n']
  | log level message => level.name ++ ' ' :: message.flatMap loggedChar ++ ['\n']

/-- The event is shown at a level. -/
def isShown (level : Level) : Event → Bool
  | line _ => true
  | log l _ => decide (l.rank ≤ level.rank)

/-- The text of the events that are shown at a level, in order. -/
def texts (level : Level) (events : List Event) : Text :=
  (events.filter (isShown level)).flatMap text

end Event

end Formdoc
