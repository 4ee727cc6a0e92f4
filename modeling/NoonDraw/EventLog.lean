import NoonDraw.Failure
import NoonDraw.Projection

/-!
# The event log

Events in the order they were appended, and how far the store that holds them can be reached. Events
are only ever added.

A read has two ends. When it begins it takes the events that are there; when it ends it hands them
over, and in between others may append. A read that begins while the gate is closed is held until the
next release. Either end may meet an outage, and so may an append: `Outages` says what the n-th access
to the store meets, so that any pattern of outages can be described.

## Main definitions

* `EventLog`, `EventLog.append`, `EventLog.beginRead`, `EventLog.endRead`: the store and its accesses.
* `EventLog.select`: the events of a scope of some kinds.
* `EventLog.read`: a read whose ends follow one another.
-/

namespace NoonDraw

/-- What the n-th access to the store meets, `none` standing for success. -/
structure Outages where
  /-- What an append meets. -/
  append : Nat → Option StoreError
  /-- What either end of a read meets. -/
  read : Nat → Option StoreError

namespace Outages

/-- The same at every access. -/
def always (append read : Option StoreError) : Outages := ⟨fun _ => append, fun _ => read⟩

/-- No outage at all. -/
def none : Outages := always .none .none

end Outages

/-- An append-only store of events. -/
structure EventLog where
  /-- The events, in the order they were appended. -/
  events : List Event := []
  /-- What accesses meet. -/
  outages : Outages := .none
  /-- How many accesses there have been. -/
  accesses : Nat := 0
  /-- How many reads have begun. -/
  reads : Nat := 0
  /-- Whether reads that begin now are held. -/
  gated : Bool := false
  /-- Held reads that began before this many reads are free. -/
  freed : Nat := 0

/-- A read that has taken its events and not handed them over yet. -/
structure OpenRead where
  /-- The events it took. -/
  events : List Event
  /-- How many reads had begun before it, if it is held. -/
  held : Option Nat
  deriving DecidableEq

namespace EventLog

/-- The events of a scope that have one of some kinds, in the order they were appended. -/
def select (events : List Event) (scope : Scope) (kinds : List EventKind) : List Event :=
  events.filter fun e => scope.holds e && e.matchesKinds kinds

/-- Adds an event. -/
def append (log : EventLog) (e : Event) : Except StoreError Unit × EventLog :=
  let met := log.outages.append log.accesses
  let log := { log with accesses := log.accesses + 1 }
  match met with
  | some error => (.error error, log)
  | none => (.ok (), { log with events := log.events ++ [e] })

/-- Begins a read. -/
def beginRead (log : EventLog) (scope : Scope) (kinds : List EventKind) :
    Except StoreError OpenRead × EventLog :=
  let met := log.outages.read log.accesses
  let log' := { log with accesses := log.accesses + 1, reads := log.reads + 1 }
  match met with
  | some error => (.error error, log')
  | none =>
    (.ok ⟨select log.events scope kinds, if log.gated then some log.reads else none⟩, log')

/-- Whether a read can end now. -/
def isFree (log : EventLog) (r : OpenRead) : Bool :=
  match r.held with
  | none => true
  | some number => number < log.freed

/-- Ends a read. -/
def endRead (log : EventLog) (r : OpenRead) : Except StoreError (List Event) × EventLog :=
  let met := log.outages.read log.accesses
  let log := { log with accesses := log.accesses + 1 }
  match met with
  | some error => (.error error, log)
  | none => (.ok r.events, log)

/-- Reads from beginning to end, whether the gate is closed or not. -/
def read (log : EventLog) (scope : Scope) (kinds : List EventKind) :
    Except StoreError (List Event) × EventLog :=
  match log.beginRead scope kinds with
  | (.error error, log) => (.error error, log)
  | (.ok r, log) => log.endRead r

/-- Frees all reads held so far. -/
def release (log : EventLog) : EventLog := { log with freed := log.reads }

end EventLog

end NoonDraw
