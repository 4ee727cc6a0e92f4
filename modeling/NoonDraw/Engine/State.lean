import NoonDraw.Cache
import NoonDraw.Directory
import NoonDraw.Engine.Locks
import NoonDraw.EventLog
import NoonDraw.Lottery
import NoonDraw.Notifier
import NoonDraw.Process
import NoonDraw.Projection.Entities
import NoonDraw.Settings

/-!
# The state of an engine

An engine works on an event log and a user directory. Between calls it keeps five caches of the log,
its lottery, its notifier, its rules, and the locks of the rooms in use. Identifiers of new rooms,
places and events come from a supply that names them in the order they are asked for.

An `Op` is one call of the engine: a process over the state that ends with a value or a failure.
-/

namespace NoonDraw

/-- New identifiers, in the order they are drawn. -/
structure IdSupply where
  /-- The n-th identifier drawn, counted from 1. -/
  draw : Nat → Identifier
  /-- How many have been drawn. -/
  drawn : Nat := 0

/-- The next identifier. -/
def IdSupply.next (ids : IdSupply) : Identifier × IdSupply :=
  (ids.draw (ids.drawn + 1), { ids with drawn := ids.drawn + 1 })

/-- Everything that a call of the engine works on. -/
structure Engine where
  /-- The event log. -/
  log : EventLog
  /-- The user directory. -/
  directory : Directory
  /-- Identifiers for what is new. -/
  ids : IdSupply
  /-- The rules of the draw. -/
  rules : Rules Float
  /-- What picks places. -/
  lottery : Lottery
  /-- What tells others of writes. -/
  notifier : Notifier
  /-- The locks of the rooms in use. -/
  locks : RoomLocks := {}
  /-- The places of rooms. -/
  places : Cache Projection.places := ∅
  /-- The rolls of rooms. -/
  rolls : Cache Projection.rolls := ∅
  /-- The boosts of rooms. -/
  boosts : Cache Projection.boosts := ∅
  /-- The rooms. -/
  rooms : Cache Projection.rooms := ∅
  /-- The memberships of users. -/
  memberships : Cache Projection.memberships := ∅

namespace Engine

/-- An engine that has just been started: nothing is cached, and nobody listens. -/
def start (settings : Settings) (entropy : UInt64) (log : EventLog) (directory : Directory)
    (ids : IdSupply) : Engine where
  log
  directory
  ids
  rules := settings.rules
  lottery := .new settings.seed entropy
  notifier := .new settings.broadcastCapacity settings.queueCapacity settings.maxInFlight

/-- Starts an engine over an empty log in memory, if its rules make sense. -/
def connect (settings : Settings) (entropy : UInt64) (directory : Directory) (ids : IdSupply) :
    Except Failure Engine := do
  settings.rules.validate
  return start settings entropy {} directory ids

/-- An engine started anew over the log and the directory of another. -/
def restart (e : Engine) (settings : Settings) (entropy : UInt64) : Engine :=
  start settings entropy e.log e.directory e.ids

/-- One call of an engine. -/
abbrev Op (α : Type) := ExceptT Failure (Process Engine) α

namespace Op

variable {α : Type}

/-- An instant that follows without fail. -/
def instant (f : Engine → α × Engine) : Op α := (Process.instant f : Process Engine α)

/-- Makes a failure of a store the failure of an operation. -/
def fromStore (operation : Operation) (p : Process Engine (Except StoreError α)) : Op α :=
  ExceptT.mk (p.bind fun
    | .ok a => .done (.ok a)
    | .error cause => .done (.error (.store operation cause)))

/-- Runs a call that has the engine to itself. -/
def run (op : Op α) (e : Engine) : Option (Except Failure α) × Engine := Process.run (ExceptT.run op) e

end Op

end Engine

end NoonDraw
