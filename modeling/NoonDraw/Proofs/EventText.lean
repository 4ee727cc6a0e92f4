import NoonDraw.Event.Json
import NoonDraw.Proofs.DateTimes
import NoonDraw.Proofs.JsonText

/-!
# Events read back

An event is read from the JSON text that it is written as (`Event.ofJsonText?_toJsonText`), whatever
characters its user and its payload have.  Writing and reading do not mirror each other: a place is
left out where there is none, a missing member is read as none or as empty, and a date-time has many
spellings of which one is written.

All members are texts, and each part of an event is read back from its own: identifiers and kinds by
their spelling (`Identifier.ofText?_toText`, `EventKind.ofName?_name`), and the instant from its
date-time.
-/

namespace NoonDraw.Event

/-- The members of an event with their texts. -/
def texts (e : Event) : List (String × String) :=
  [("id", e.id.id.toText), ("actor_id", e.actor.text), ("group_id", e.room.id.toText),
    ("kind", e.kind.name), ("timestamp", e.time.toRfc3339)] ++
  (e.place.map fun p => ("place_id", p.id.toText)).toList ++ [("payload", e.payload)]

theorem toJson_eq (e : Event) : e.toJson = .object (e.texts.map Json.textMember) := by
  obtain ⟨id, actor, room, kind, time, place, payload⟩ := e
  cases place <;> rfl

/-- No member of an event is written twice. -/
theorem membersDistinct_texts (e : Event) : membersDistinct (e.texts.map Json.textMember) := by
  cases place : e.place <;>
    simp [membersDistinct, memberNames, texts, place, Json.textMember]

/-- An event is read from its members, if its time is read from its date-time. -/
theorem ofJson?_toJson {e : Event} (time : Instant.ofRfc3339? e.time.toRfc3339 = some e.time) :
    ofJson? e.toJson = some e := by
  have isText (s : String) : text? (.string (some s)) = some s := rfl
  have isId (i : Identifier) : identifier? (.string (some i.toText)) = some i := by
    rw [identifier?, isText, Option.bind_some, Identifier.ofText?_toText]
  have isKind (k : EventKind) : kind? (.string (some k.name)) = some k := by
    rw [kind?, Option.bind_some, EventKind.ofName?_name]
  have isPlace (p : PlaceId) : place? (.string (some p.id.toText)) = some (some p) := by
    simp [place?, isId]
  rw [toJson_eq, ofJson?]
  simp only [membersDistinct_texts, if_true]
  obtain ⟨id, actor, room, kind, instant, place, payload⟩ := e
  dsimp only at time
  cases place <;> simp [texts, Json.textMember, ofParts?, isText, isId, isKind, isPlace, time]

/-- Every event is read from the JSON text that it is written as, if its instant is within the years
that there are, and not after the end of a second that is not the last of its minute. -/
theorem ofJsonText?_toJsonText (e : Event) (inRange : Instant.inRange (e.time.localDay .utc))
    (shown : e.time.nanos < 1000000000 ∨ e.time.seconds % 60 = 59) :
    ofJsonText? e.toJsonText = some e := by
  rw [ofJsonText?, toJsonText, toJson_eq, Json.ofText?_texts, Option.bind_some, ← toJson_eq]
  exact ofJson?_toJson (Instant.ofRfc3339?_toRfc3339 inRange shown)

/-- An event without a place, before the year 0, whose texts have characters that are escaped. -/
def unusual : Event where
  id := ⟨.ofNat 1⟩
  actor := ⟨"\x01 \"\\\x7f é 𝄞"⟩
  room := ⟨.ofNat 2⟩
  kind := .roomCreated
  time := { seconds := -70000000000, nanos := 120000 }
  payload := "two\nlines"

theorem ofJsonText?_toJsonText_unusual :
    unusual.time.toRfc3339 = "-0249-10-15T19:33:20.000120Z" ∧
      Instant.inRange (unusual.time.localDay .utc) ∧ unusual.time.nanos < 1000000000 ∧
      ofJsonText? unusual.toJsonText = some unusual := by
  have inRange : Instant.inRange (unusual.time.localDay .utc) := by decide
  have short : unusual.time.nanos < 1000000000 := by decide
  exact ⟨by decide +kernel, inRange, short, ofJsonText?_toJsonText unusual inRange (.inl short)⟩

end NoonDraw.Event
