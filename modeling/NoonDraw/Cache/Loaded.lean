import NoonDraw.Projection

/-!
# A scope loaded in full

The events of a scope in replay order, and the table they add up to, kept up as more events come in.
An event that is not older than all others is applied to the table; one that comes late is put in its
place among the others and the table is worked out afresh. An event whose identifier has been seen is
left out.

## Main definitions

* `Loaded.ofEvents`, `Loaded.push`: the state from a list of events, and after one more.
* `Loaded.inReplayOrder`: the entities in the order in which replay first touches them.
-/

namespace NoonDraw

universe u v

/-- The events of a scope and what they add up to. -/
structure Loaded (κ : Type u) (ε : Type v) [Key κ] where
  /-- The events, in replay order. -/
  events : List Event
  /-- The identifiers of the events. -/
  seen : KeySet EventId
  /-- The table that the events add up to. -/
  state : Table κ ε

namespace Loaded

variable {κ : Type u} {ε : Type v} [Key κ] (p : Projection κ ε)

/-- The state of events in any order. -/
def ofEvents (events : List Event) : Loaded κ ε :=
  let events := Event.sortByTime events
  { events, seen := KeySet.ofList (events.map Event.id), state := p.fold events }

/-- Events in replay order with one more, after all those that are not later. -/
def insertByTime (e : Event) (events : List Event) : List Event :=
  events.takeWhile (fun x => x.time ≤ e.time) ++ e :: events.dropWhile fun x => x.time ≤ e.time

/-- Whether an event is not older than the last of some events. -/
def isInOrder (e : Event) (events : List Event) : Bool :=
  match events.getLast? with
  | none => true
  | some last => decide (last.time ≤ e.time)

/-- The state after one more event, and whether the table was worked out afresh. -/
def push (l : Loaded κ ε) (e : Event) : Loaded κ ε × Bool :=
  if l.seen.contains e.id then (l, false)
  else
    let seen := l.seen.add e.id
    if isInOrder e l.events then
      ({ events := l.events ++ [e], seen, state := p.apply l.state e }, false)
    else
      let events := insertByTime e l.events
      ({ events, seen, state := p.fold events }, true)

/-- The entities, each where replay first touches its key. -/
def inReplayOrder [DecidableEq κ] (l : Loaded κ ε) : List ε :=
  (l.events.filterMap p.key).eraseDups.filterMap l.state.get?

end Loaded

end NoonDraw
