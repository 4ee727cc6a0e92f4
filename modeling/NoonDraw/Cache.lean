import NoonDraw.Cache.Slot

/-!
# Read-through caches

A cache remembers what one projection makes of the log, scope by scope. It never forgets and never
looks at the clock: it stays right because every write is shown to it right after it is in the log.

A scope is loaded in full by one call at a time. The call claims the slot, reads the log and installs
what it has read, or abandons the claim; the others wait. A look-up of one key reads the log on its
own. The functions here are the single instants of such calls; `NoonDraw.Cache.Calls` and
`NoonDraw.Engine.Reads` put them in order.

## Main definitions

* `Cache`: the slots of all scopes, and how often the log has been called upon.
* `Cache.loaded?`, `Cache.lookup`: answers without the log.
* `Cache.claim`, `Cache.install`, `Cache.abandon`: the load of a scope.
* `Cache.miss`, `Cache.record`: the look-up of a key.
* `Cache.observe`: a write.
-/

namespace NoonDraw

universe u v

/-- What is remembered of the log under one projection. -/
structure Cache {κ : Type u} {ε : Type v} [Key κ] (p : Projection κ ε) where
  /-- What is cached of each scope. -/
  slots : Table Scope (Slot κ ε) := ∅
  /-- How many times the log has been called upon. -/
  loads : Nat := 0

namespace Cache

variable {κ : Type u} {ε : Type v} [Key κ] {p : Projection κ ε}

instance : EmptyCollection (Cache p) := ⟨{}⟩
instance : Inhabited (Cache p) := ⟨∅⟩

/-- What is cached of a scope. -/
def slot (c : Cache p) (scope : Scope) : Slot κ ε := (c.slots.get? scope).getD {}

/-- Replaces what is cached of a scope. -/
def setSlot (c : Cache p) (scope : Scope) (s : Slot κ ε) : Cache p :=
  { c with slots := c.slots.insert scope s }

/-- The scope in full, if it is loaded. -/
def loaded? (c : Cache p) (scope : Scope) : Option (Loaded κ ε) :=
  match (c.slot scope).collection with
  | .ready loaded => some loaded
  | _ => none

/-- Whether some call is loading a scope. -/
def isPopulating (c : Cache p) (scope : Scope) : Bool :=
  match (c.slot scope).collection with
  | .populating _ => true
  | _ => false

/-- Claims a scope for loading it. -/
def claim (c : Cache p) (scope : Scope) : Cache p :=
  let c := c.setSlot scope { c.slot scope with collection := .populating [] }
  { c with loads := c.loads + 1 }

/-- Ends the load of a scope with the events read. -/
def install (c : Cache p) (scope : Scope) (fetched : List Event) : Cache p :=
  c.setSlot scope ((c.slot scope).install p fetched)

/-- Ends the load of a scope without success. -/
def abandon (c : Cache p) (scope : Scope) : Cache p :=
  match c.slots.get? scope with
  | some s => c.setSlot scope s.abandon
  | none => c

/-- The cached answer for a key of a scope. -/
def lookup (c : Cache p) (scope : Scope) (key : κ) : Option (Option ε) :=
  (c.slot scope).lookup key

/-- How many events of a scope have been observed. -/
def generation (c : Cache p) (scope : Scope) : UInt64 := (c.slot scope).generation

/-- Counts a look-up that has found no cached answer. -/
def miss (c : Cache p) : Cache p := { c with loads := c.loads + 1 }

/-- What the events read by a look-up say of its key. -/
def entryOf (p : Projection κ ε) (fetched : List Event) (key : κ) : Option ε :=
  (p.materialize fetched).get? key

/-- Ends a look-up with the events read; `begun` is the generation of the scope when it began. -/
def record (c : Cache p) (scope : Scope) (key : κ) (begun : UInt64) (fetched : List Event) : Cache p :=
  c.setSlot scope ((c.slot scope).record key begun fetched (entryOf p fetched key))

/-- The cache after an event has been written to the log. -/
def observe (c : Cache p) (e : Event) : Cache p :=
  if p.reads e.kind then c.setSlot (p.scope e) ((c.slot (p.scope e)).observe p e) else c

/-- The cache in words. -/
def describe (c : Cache p) : String :=
  "ReadThroughCache \x7b projection: \"" ++ p.name ++ "\", scopes: " ++ toString c.slots.size ++
    ", loads: " ++ toString c.loads ++ " \x7d"

end Cache

end NoonDraw
