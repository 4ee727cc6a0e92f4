import NoonDraw.Engine.State

/-!
# Reading and writing through the caches

Every read of the engine goes through one of its caches, and every write goes to the log first and
then to each cache. A read that finds its scope loaded or its key cached is answered on the spot; else
it takes the same instants as the calls of `NoonDraw.Cache.Calls`: it claims the scope, begins and
ends a read of the log, and installs or abandons. A read that is dropped abandons its claim.

## Main definitions

* `Engine.readLoaded`, `Engine.readEntry`: reads of a scope and of a key, in any of the caches.
* `Engine.placesOf`, `Engine.place?`, `Engine.rollsOf`, `Engine.boostsOf`, `Engine.room?`,
  `Engine.membershipsOf`: the reads of the engine.
* `Engine.store`: a write.
-/

namespace NoonDraw.Engine

/-- One of the caches of an engine. -/
structure CacheOf {κ ε : Type} [Key κ] (p : Projection κ ε) where
  /-- The cache. -/
  get : Engine → Cache p
  /-- The engine with another cache in its place. -/
  set : Engine → Cache p → Engine

/-- The cache of places. -/
def placeCache : CacheOf Projection.places := ⟨places, fun e places => { e with places }⟩
/-- The cache of rolls. -/
def rollCache : CacheOf Projection.rolls := ⟨rolls, fun e rolls => { e with rolls }⟩
/-- The cache of boosts. -/
def boostCache : CacheOf Projection.boosts := ⟨boosts, fun e boosts => { e with boosts }⟩
/-- The cache of rooms. -/
def roomCache : CacheOf Projection.rooms := ⟨rooms, fun e rooms => { e with rooms }⟩
/-- The cache of memberships. -/
def membershipCache : CacheOf Projection.memberships :=
  ⟨memberships, fun e memberships => { e with memberships }⟩

section

variable {κ ε β : Type} [Key κ] {p : Projection κ ε}

/-- An engine with one of its caches changed. -/
def CacheOf.modify (c : CacheOf p) (f : Cache p → Cache p) (e : Engine) : Engine := c.set e (f (c.get e))

/-- Reads the log. If the read is dropped before its end, `drop` is left to do. -/
def readLog (scope : Scope) (kinds : List EventKind) (drop : List (Engine → Engine)) :
    Process Engine (Except StoreError (List Event)) := do
  let begun ← Process.suspend (fun _ => true)
    (fun e => let (r, log) := e.log.beginRead scope kinds; (r, { e with log })) drop
  match begun with
  | .error error => return .error error
  | .ok read =>
    Process.suspend (fun e => e.log.isFree read)
      (fun e => let (r, log) := e.log.endRead read; (r, { e with log })) drop

/-- Reads something off a scope in full, loading it if need be. -/
def readLoaded (c : CacheOf p) (scope : Scope) (view : Loaded κ ε → β) :
    Process Engine (Except StoreError β) := do
  let found ← Process.suspend (fun e => !(c.get e).isPopulating scope)
    (fun e => match (c.get e).loaded? scope with
      | some loaded => (some loaded, e)
      | none => (none, c.modify (·.claim scope) e)) []
  match found with
  | some loaded => return .ok (view loaded)
  | none =>
    let abandon := c.modify (·.abandon scope)
    match ← readLog scope p.kinds [abandon] with
    | .error error =>
      Process.steps [abandon]
      return .error error
    | .ok events =>
      Process.instant fun e =>
        let e := c.modify (·.install scope events) e
        (.ok (view (((c.get e).loaded? scope).getD (.ofEvents p events))), e)

/-- Reads the entity with a key off a scope. -/
def readEntry (c : CacheOf p) (scope : Scope) (key : κ) :
    Process Engine (Except StoreError (Option ε)) := do
  let (cached, begun) ← Process.instant fun e =>
    match (c.get e).lookup scope key with
    | some entity => ((some entity, 0), e)
    | none => ((none, (c.get e).generation scope), c.modify Cache.miss e)
  match cached with
  | some entity => return .ok entity
  | none =>
    match ← readLog scope p.kinds [] with
    | .error error => return .error error
    | .ok events =>
      Process.instant fun e =>
        (.ok (Cache.entryOf p events key), c.modify (·.record scope key begun events) e)

end

/-! ### The reads of the engine -/

/-- Every place of a room, those off the list included. -/
def placesOf (room : RoomId) : Op (Table PlaceId Place) :=
  .fromStore .loadPlaces (readLoaded placeCache (.room room) Loaded.state)

/-- One place of a room, on the list or not. -/
def place? (room : RoomId) (place : PlaceId) : Op (Option Place) :=
  .fromStore .loadPlace (readEntry placeCache (.room room) place)

/-- Every roll of a room, oldest first; those of one instant are in the order of the log. -/
def rollsOf (room : RoomId) : Op (List Roll) :=
  .fromStore .loadRolls
    (readLoaded rollCache (.room room) fun loaded => loaded.inReplayOrder Projection.rolls)

/-- Every boost of a room, oldest first; those of one instant are in the order of the log. -/
def boostsOf (room : RoomId) : Op (List Boost) :=
  .fromStore .loadBoosts
    (readLoaded boostCache (.room room) fun loaded => loaded.inReplayOrder Projection.boosts)

/-- A room, if it has been opened. -/
def room? (room : RoomId) : Op (Option Room) :=
  .fromStore .loadRoom (readEntry roomCache (.room room) room)

/-- The rooms that a user belongs to, oldest membership first. -/
def membershipsOf (user : UserId) : Op (List Membership) := do
  let state ← Op.fromStore .loadMemberships (readLoaded membershipCache (.user user) Loaded.state)
  return state.values.mergeSort fun a b => decide (a.since ≤ b.since)

/-- A user's record, if the directory has one. -/
def user? (user : UserId) : Op (Option User) :=
  .fromStore .getUser <| Process.suspend (fun _ => true)
    (fun e => let (r, directory) := e.directory.get user; (r, { e with directory })) []

/-- The records of all users. -/
def users : Op (Table UserId User) :=
  .fromStore .listUsers <| Process.suspend (fun _ => true)
    (fun e => let (r, directory) := e.directory.list; (r, { e with directory })) []

/-! ### Writing -/

/-- Shows a written event to each cache in turn. -/
def observers (event : Event) : List (Engine → Engine) :=
  [placeCache.modify (·.observe event), rollCache.modify (·.observe event),
    boostCache.modify (·.observe event), roomCache.modify (·.observe event),
    membershipCache.modify (·.observe event)]

/-- Writes an event: appends it to the log and, if that succeeds, shows it to the caches. -/
def store (event : Event) : Op Unit := do
  Op.fromStore .appendEvent <| Process.suspend (fun _ => true)
    (fun e => let (r, log) := e.log.append event; (r, { e with log })) []
  ExceptT.lift (Process.steps (observers event))

/-- Draws an identifier. -/
def drawId : Op Identifier := .instant fun e => let (i, ids) := e.ids.next; (i, { e with ids })

/-- Draws an identifier for an event of a kind, caused by a user in a room. -/
def newEvent (kind : EventKind) (actor : UserId) (room : RoomId) (time : Instant)
    (place : Option PlaceId) (payload : String) : Op Event := do
  return { id := ⟨← drawId⟩, actor, room, kind, time, place, payload }

/-- Hands a notification to the notifier. -/
def tell (notification : Notification) : Op Unit :=
  .instant fun e => ((), { e with notifier := e.notifier.notify notification })

end NoonDraw.Engine
