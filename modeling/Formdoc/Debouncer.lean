/-
Waiting for changes to settle.

A debouncer holds the paths that have changed, each with the time of its last
change.  A path is ready once it has been quiet for the delay, and is then
handed out once.  Paths that name the same are one path; it keeps the spelling
with which it came in.  Times are in milliseconds, and a time before the last
change counts as no time since then.
-/
import Formdoc.Files.Path
import Formdoc.OrderedMap

namespace Formdoc

/-- A path that has changed: its spelling, and when it changed last. -/
structure Change where
  path : Text
  time : Nat
deriving DecidableEq, Repr

/-- The delay, and the changes that wait. -/
structure Debouncer where
  delay : Nat
  pending : OrderedMap (List PathPart) Change

namespace Debouncer

/-- The debouncer to which nothing has happened. -/
def new (delay : Nat) : Debouncer := ⟨delay, .empty⟩

/-- A path changes. -/
def touch (d : Debouncer) (path : Text) (time : Nat) : Debouncer :=
  let key := Path.parts path
  let spelling := ((d.pending.get? key).map Change.path).getD path
  { d with pending := d.pending.insert key ⟨spelling, time⟩ }

/-- A path is no longer waited for. -/
def forget (d : Debouncer) (path : Text) : Debouncer :=
  { d with pending := d.pending.erase (Path.parts path) }

/-- A change has been quiet for the delay. -/
def isSettled (delay now : Nat) (c : Change) : Bool :=
  decide (delay ≤ now - c.time)

/-- The paths that are ready, in order, and the debouncer without them. -/
def ready (d : Debouncer) (now : Nat) : List Text × Debouncer :=
  let settled := d.pending.entries.filter fun e => isSettled d.delay now e.2
  (Path.sort (settled.map fun e => e.2.path),
    { d with pending := d.pending.removeAll fun _ c => isSettled d.delay now c })

/-- No path waits. -/
def isEmpty (d : Debouncer) : Bool :=
  d.pending.isEmpty

end Debouncer

end Formdoc
