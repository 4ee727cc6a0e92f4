import NoonDraw.Cache.Loaded

/-!
# What is cached of one scope

A slot holds what is known of a scope. It may be loaded in full; it may be about to be, in which case
the events observed meanwhile are kept; or it may be cold. Besides, it holds what single look-ups have
found, including that there was nothing to find.

Every observed event brings a slot up to date. Unless the scope is loaded, an event changes the cached
entry of its own key alone; one older than the newest event that the entries reflect makes them all
void, since it may have to be replayed before events already reflected.

## Main definitions

* `Slot`, `Slot.lookup`, `Slot.observe`: what is cached, its answers, and its upkeep.
* `Slot.install`: the slot once the events of its scope have been read.
* `Slot.record`: the slot once a single look-up has found its answer.
-/

namespace NoonDraw

universe u v

/-- How much of a scope is loaded. -/
inductive Collection (κ : Type u) (ε : Type v) [Key κ] where
  /-- Nothing. -/
  | cold
  /-- A call is loading the scope; these events have been observed since it began. -/
  | populating (observed : List Event)
  /-- All of it. -/
  | ready (loaded : Loaded κ ε)

/-- What is cached of one scope. -/
structure Slot (κ : Type u) (ε : Type v) [Key κ] where
  /-- How much of the scope is loaded. -/
  collection : Collection κ ε := .cold
  /-- The entries looked up one by one; `none` says that there is no such entity. -/
  keys : Table κ (Option ε) := ∅
  /-- The newest time that those entries reflect, while the scope is not loaded. -/
  watermark : Option Instant := none
  /-- How many events have been observed, modulo `2 ^ 64`. -/
  generation : UInt64 := 0

namespace Slot

variable {κ : Type u} {ε : Type v} [Key κ] (p : Projection κ ε)

/-- The cached answer for a key: `none` if nothing is cached. -/
def lookup (s : Slot κ ε) (key : κ) : Option (Option ε) :=
  match s.keys.get? key with
  | some entry => some entry
  | none =>
    match s.collection with
    | .ready loaded => some (loaded.state.get? key)
    | .cold | .populating _ => none

/-- The entries brought up to the state of a scope that is loaded. -/
def refreshed (loaded : Loaded κ ε) (keys : Table κ (Option ε)) : Table κ (Option ε) :=
  (keys.map fun key _ => loaded.state.get? key).insertAll
    (loaded.state.entries.map fun e => (e.1, some e.2))

/-- What an event makes of the entry of its key, worked out on that entry alone. -/
def stepEntry (e : Event) (key : κ) (entry : Option ε) : Option ε :=
  let single : Table κ ε := match entry with
    | some entity => (∅ : Table κ ε).insert key entity
    | none => ∅
  (p.apply single e).get? key

/-- The single entries after an event, while the scope is not loaded. -/
def observeKey (s : Slot κ ε) (e : Event) : Slot κ ε :=
  if s.watermark.any fun newest => e.time < newest then { s with keys := ∅, watermark := none }
  else
    let s := { s with watermark := some e.time }
    match p.key e with
    | none => s
    | some key => { s with keys := s.keys.modify key (stepEntry p e key) }

/-- The slot after an event of its scope has been written. -/
def observe (s : Slot κ ε) (e : Event) : Slot κ ε :=
  let s := { s with generation := s.generation + 1 }
  match s.collection with
  | .ready loaded =>
    let (loaded, afresh) := loaded.push p e
    let s := { s with collection := .ready loaded }
    if afresh then { s with keys := refreshed loaded s.keys }
    else
      match p.key e with
      | none => s
      | some key => { s with keys := s.keys.insert key (loaded.state.get? key) }
  | .populating observed => observeKey p { s with collection := .populating (observed ++ [e]) } e
  | .cold => observeKey p s e

/-- Events read from the log together with those observed since, each once. -/
def merge (fetched observed : List Event) : List Event :=
  let known := KeySet.ofList (fetched.map Event.id)
  fetched ++ observed.filter fun e => !known.contains e.id

/-- The slot once a call that loads it has read the events of the scope. -/
def install (s : Slot κ ε) (fetched : List Event) : Slot κ ε :=
  let load (observed : List Event) : Slot κ ε :=
    let loaded := Loaded.ofEvents p (merge fetched observed)
    { s with collection := .ready loaded, watermark := none, keys := refreshed loaded s.keys }
  match s.collection with
  | .ready _ => s
  | .populating observed => load observed
  | .cold => load []

/-- The slot once the call that was loading it has given up. -/
def abandon (s : Slot κ ε) : Slot κ ε :=
  match s.collection with
  | .populating _ => { s with collection := .cold }
  | _ => s

/-- The later of two times, where no time is earlier than any. -/
def laterOf (a b : Option Instant) : Option Instant :=
  match a, b with
  | some a, some b => some (max a b)
  | some a, none => some a
  | none, b => b

/-- The slot once a single look-up has read what there is to know of a key. The answer is kept only if
no event has been observed since the look-up began, since the events read may not include it. -/
def record (s : Slot κ ε) (key : κ) (begun : UInt64) (fetched : List Event) (entry : Option ε) :
    Slot κ ε :=
  if s.generation = begun then
    { s with
      keys := s.keys.insert key entry
      watermark := laterOf s.watermark (Event.newest? fetched) }
  else s

end Slot

end NoonDraw
