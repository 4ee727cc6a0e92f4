import NoonDraw.Event
import NoonDraw.Instant.Rfc3339
import NoonDraw.Json

/-!
# Events as JSON

An event is written as an object with the members `id`, `actor_id`, `group_id`, `kind`, `timestamp`,
`place_id` and `payload`, in that order; an event without a place has no `place_id`.

It is read from such an object, with its members in any order, or from an array of their values in
that order. Members of other names are ignored, while one of these names may occur only once. A
missing place or payload is none or empty, and a place may also be `null`. A kind may stand alone or
as the only member of an object, with the value `null`.
-/

namespace NoonDraw.Event

/-- A text as JSON. -/
private def textJson (s : String) : Json := .string (some s)

/-- An event as a JSON object. -/
def toJson (e : Event) : Json :=
  let member (name value : String) : Option String × Json := (some name, textJson value)
  .object <|
    [member "id" e.id.id.toText, member "actor_id" e.actor.text, member "group_id" e.room.id.toText,
      member "kind" e.kind.name, member "timestamp" e.time.toRfc3339] ++
    (e.place.map fun p => member "place_id" p.id.toText).toList ++
    [member "payload" e.payload]

/-- An event as JSON text. -/
def toJsonText (e : Event) : String := e.toJson.toText

/-- The content of a string. -/
def text? : Json → Option String
  | .string content => content
  | _ => none

/-- An identifier from its spelling in a string. -/
def identifier? (v : Json) : Option Identifier := (text? v).bind Identifier.ofText?

/-- A kind by its name, alone or as the name of a single `null` member. -/
def kind? : Json → Option EventKind
  | .string content => content.bind EventKind.ofName?
  | .object [(some name, .null)] => EventKind.ofName? name
  | _ => none

/-- A place or `null`. -/
def place? : Json → Option (Option PlaceId)
  | .null => some none
  | v => (identifier? v).map fun i => some ⟨i⟩

/-- An event from the values of its members, the last two of which may be missing. -/
def ofParts? (id actor room kind time : Json) (place payload : Option Json) : Option Event := do
  return {
    id := ⟨← identifier? id⟩
    actor := ⟨← text? actor⟩
    room := ⟨← identifier? room⟩
    kind := ← kind? kind
    time := ← (text? time).bind Instant.ofRfc3339?
    place := ← match place with
      | none => some none
      | some v => place? v
    payload := ← match payload with
      | none => some ""
      | some v => text? v }

/-- The names of the members of an event. -/
def memberNames : List String :=
  ["id", "actor_id", "group_id", "kind", "timestamp", "place_id", "payload"]

/-- Whether members have names that denote texts, and none of an event's members occurs twice. -/
def membersDistinct (members : List (Option String × Json)) : Bool :=
  members.all (fun m => m.1.isSome) &&
    memberNames.all fun name => (members.filter fun m => m.1 = some name).length ≤ 1

/-- An event from JSON. -/
def ofJson? : Json → Option Event
  | .object members => do
    let member? (name : String) : Option Json := (members.find? fun m => m.1 = some name).map (·.2)
    if membersDistinct members then
      ofParts? (← member? "id") (← member? "actor_id") (← member? "group_id") (← member? "kind")
        (← member? "timestamp") (member? "place_id") (member? "payload")
    else none
  | .array [id, actor, room, kind, time] => ofParts? id actor room kind time none none
  | .array [id, actor, room, kind, time, place] => ofParts? id actor room kind time (some place) none
  | .array [id, actor, room, kind, time, place, payload] =>
    ofParts? id actor room kind time (some place) (some payload)
  | _ => none

/-- An event from JSON text. -/
def ofJsonText? (s : String) : Option Event := (Json.ofText? s).bind ofJson?

end NoonDraw.Event
