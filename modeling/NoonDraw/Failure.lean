/-!
# Failures

Why a call is refused or breaks off, one constructor for each cause. The words are in
`Failure.message` and `StoreError.message` alone.

A `StoreError` is what the event log or the user directory reports; a `Failure` is what a caller of
the engine sees, in which such a report is named after the operation that met it. A failure is
transient if the same call may succeed later: if it comes from a store that could not be reached.
-/

namespace NoonDraw

/-- What the event log or the user directory may report. -/
inductive StoreError where
  /-- The store could not be reached. -/
  | unreachable (detail : String)
  /-- A stored record makes no sense. -/
  | corrupt (detail : String)
  /-- The database refused. -/
  | database (detail : String)
  deriving DecidableEq

/-- A report in words. -/
def StoreError.message : StoreError → String
  | unreachable detail => s!"storage i/o failure: {detail}"
  | corrupt detail => s!"corrupt record: {detail}"
  | database detail => s!"database error: {detail}"

/-- What can be looked up and missed. -/
inductive Subject where
  /-- A room. -/
  | room
  /-- A place. -/
  | place
  deriving DecidableEq

/-- The name of a subject. -/
def Subject.name : Subject → String
  | room => "room"
  | place => "place"

/-- The operations on stores that a failure can name. -/
inductive Operation where
  /-- Writing an event. -/
  | appendEvent
  /-- Reading the places of a room. -/
  | loadPlaces
  /-- Reading one place. -/
  | loadPlace
  /-- Reading the rolls of a room. -/
  | loadRolls
  /-- Reading the boosts of a room. -/
  | loadBoosts
  /-- Reading a room. -/
  | loadRoom
  /-- Reading the memberships of a user. -/
  | loadMemberships
  /-- Looking up a user. -/
  | getUser
  /-- Listing all users. -/
  | listUsers
  deriving DecidableEq

/-- The name of an operation. -/
def Operation.name : Operation → String
  | appendEvent => "append event"
  | loadPlaces => "load places"
  | loadPlace => "load place"
  | loadRolls => "load rolls"
  | loadBoosts => "load boosts"
  | loadRoom => "load room"
  | loadMemberships => "load memberships"
  | getUser => "get user"
  | listUsers => "list users"

/-- Why a call of the engine did not succeed. -/
inductive Failure where
  /-- There is no such room or place. -/
  | notFound (subject : Subject) (id : String)
  /-- The room has nothing to draw from. -/
  | noPlaces
  /-- The user has spent the points of the week. -/
  | noPoints
  /-- The request makes no sense. -/
  | invalidRequest (reason : String)
  /-- A store failed. -/
  | store (operation : Operation) (cause : StoreError)
  /-- The settings make no sense. -/
  | settings (reason : String)
  deriving DecidableEq

namespace Failure

/-- A failure in words. -/
def message : Failure → String
  | notFound subject id => s!"{subject.name} not found: {id}"
  | noPlaces => "no places to choose from"
  | noPoints => "no points left"
  | invalidRequest reason => s!"invalid request: {reason}"
  | store operation cause => s!"{operation.name} failed: {cause.message}"
  | settings reason => s!"configuration error: {reason}"

/-- The number of a failure: 1000 and on for bad requests and settings, 2000 for what is missing, 3000
for stores, 4000 for the rules of the draw. -/
def code : Failure → Nat
  | invalidRequest _ => 1001
  | settings _ => 1002
  | notFound _ _ => 2001
  | store _ _ => 3001
  | noPlaces => 4001
  | noPoints => 4002

/-- Whether the same call may succeed later. -/
def isTransient : Failure → Bool
  | store _ (.unreachable _) | store _ (.database _) => true
  | _ => false

/-- A name that is blank. -/
def blankName (subject : Subject) : Failure := invalidRequest s!"{subject.name} name must not be empty"

end Failure

end NoonDraw
