import Mathlib.Algebra.Order.Group.Multiset
import NoonDraw.Proofs.EngineSpec
import NoonDraw.Proofs.GroundedCaches
import NoonDraw.Text.Blank

/-!
# Well-formed logs

An event fits a log if what it refers to is there already (`Event.Fits`): members come and go, and
places are added, in rooms that have been opened, and what happens to a place happens in the room to
which it was added.  Rooms and places are opened and added once, with a name.  A log is well-formed if
every event fits those before it (`WellFormed`).

An engine is founded if its log is well-formed, what its caches of rooms and places show goes back to
the log, and identifiers are new (`Engine.Founded`).  Who has seen events in the log may rely on them
(`Evidence`), since none is ever taken out, and so an event that fits what its writer has seen may be
appended whenever it is (`Founded.append`).
-/

namespace NoonDraw

/-! ### Events that fit -/

/-- A text that may be the name of a room or a place: it is not empty, and has no blanks at its ends. -/
def IsName (text : String) : Prop := text ≠ "" ∧ Text.trim text = text

namespace Event

/-- A room has been opened. -/
def Opened (room : RoomId) (events : List Event) : Prop :=
  ∃ e ∈ events, e.kind = .roomCreated ∧ e.room = room

/-- A place has been added to a room. -/
def Added (room : RoomId) (place : PlaceId) (events : List Event) : Prop :=
  ∃ e ∈ events, e.kind = .placeCreated ∧ e.place = some place ∧ e.room = room

/-- Whether an event may come after others. -/
def Fits (before : List Event) (e : Event) : Prop :=
  match e.kind with
  | .roomCreated => e.place = none ∧ IsName e.payload ∧ ¬ Opened e.room before
  | .roomJoined | .roomLeft => e.place = none ∧ e.payload = "" ∧ Opened e.room before
  | .placeCreated => ∃ place, e.place = some place ∧ IsName e.payload ∧ Opened e.room before ∧
    ∀ room, ¬ Added room place before
  | .placeDeleted | .placeRestored | .rollCreated | .boostCreated =>
    ∃ place, e.place = some place ∧ e.payload = "" ∧ Added e.room place before

variable {room : RoomId} {place : PlaceId} {events more : List Event} {e : Event}

theorem Opened.subset (opened : Opened room events) (among : events ⊆ more) : Opened room more :=
  let ⟨a, ha, opens⟩ := opened
  ⟨a, among ha, opens⟩

theorem Added.subset (added : Added room place events) (among : events ⊆ more) :
    Added room place more :=
  let ⟨a, ha, adds⟩ := added
  ⟨a, among ha, adds⟩

/-- The identifier that an event gives to a room or a place. -/
def named? (e : Event) : Option Identifier :=
  match e.kind with
  | .roomCreated => some e.room.id
  | .placeCreated => e.place.map PlaceId.id
  | _ => none

theorem Opened.named (opened : Opened room events) : room.id ∈ events.filterMap named? := by
  obtain ⟨a, ha, kind, rfl⟩ := opened
  exact List.mem_filterMap.2 ⟨a, ha, by rw [named?, kind]⟩

theorem Added.named (added : Added room place events) : place.id ∈ events.filterMap named? := by
  obtain ⟨a, ha, kind, isPlace, -⟩ := added
  exact List.mem_filterMap.2 ⟨a, ha, by rw [named?, kind, isPlace]; rfl⟩

end Event

/-- A log all whose events fit those before them. -/
def WellFormed (events : List Event) : Prop :=
  ∀ before e after, events = before ++ e :: after → e.Fits before

theorem WellFormed.nil : WellFormed [] := by
  intro before e after split
  simp at split

theorem WellFormed.concat {events : List Event} {e : Event} (wellFormed : WellFormed events)
    (fits : e.Fits events) : WellFormed (events ++ [e]) := by
  intro before a after split
  rcases List.eq_nil_or_concat after with rfl | ⟨rest, last, rfl⟩
  · obtain ⟨rfl, same⟩ := List.append_inj' split rfl
    exact (List.cons.inj same).1 ▸ fits
  · rw [List.concat_eq_append, ← List.cons_append, ← List.append_assoc] at split
    exact wellFormed before a rest (List.append_inj' split rfl).1

/-! ### Identifiers -/

/-- Identifiers, of which some have been used as names, some have been drawn and not been used yet, and
so many may be drawn still. -/
structure NamesSound (ids : IdSupply) (used : List Identifier) (drawn : Multiset Identifier)
    (more : Nat) : Prop where
  /-- No identifier is drawn twice. -/
  once : ∀ i < more, ∀ j < more, ids.draw (ids.drawn + 1 + i) = ids.draw (ids.drawn + 1 + j) → i = j
  /-- Nor has any been. -/
  distinct : drawn.Nodup
  /-- Those that have been drawn are not used. -/
  unused : ∀ id ∈ drawn, id ∉ used
  /-- Those to be drawn are new. -/
  new : ∀ i < more, ids.draw (ids.drawn + 1 + i) ∉ used ∧ ids.draw (ids.drawn + 1 + i) ∉ drawn

namespace NamesSound

variable {ids : IdSupply} {used : List Identifier} {drawn part : Multiset Identifier} {more : Nat}
  {id : Identifier}

theorem le (sound : NamesSound ids used drawn more) (among : part ≤ drawn) :
    NamesSound ids used part more where
  once := sound.once
  distinct := Multiset.nodup_of_le among sound.distinct
  unused id isDrawn := sound.unused id (Multiset.mem_of_le among isDrawn)
  new i hi := ⟨(sound.new i hi).1, fun isDrawn => (sound.new i hi).2 (Multiset.mem_of_le among isDrawn)⟩

theorem fewer (sound : NamesSound ids used drawn (more + 1)) : NamesSound ids used drawn more where
  once i hi j hj := sound.once i (Nat.lt_succ_of_lt hi) j (Nat.lt_succ_of_lt hj)
  distinct := sound.distinct
  unused := sound.unused
  new i hi := sound.new i (Nat.lt_succ_of_lt hi)

/-- An identifier is drawn. -/
theorem draw (sound : NamesSound ids used drawn (more + 1)) :
    NamesSound ids.next.2 used (ids.next.1 ::ₘ drawn) more where
  once i hi j hj same := by
    rw [IdSupply.FreshFor.draw_next, IdSupply.FreshFor.draw_next] at same
    exact Nat.succ.inj (sound.once (i + 1) (by omega) (j + 1) (by omega) same)
  distinct := Multiset.nodup_cons.2 ⟨(sound.new 0 (Nat.succ_pos more)).2, sound.distinct⟩
  unused id isDrawn := by
    rcases Multiset.mem_cons.1 isDrawn with rfl | isDrawn
    · exact (sound.new 0 (Nat.succ_pos more)).1
    · exact sound.unused id isDrawn
  new i hi := by
    rw [IdSupply.FreshFor.draw_next]
    obtain ⟨notUsed, notDrawn⟩ := sound.new (i + 1) (by omega)
    refine ⟨notUsed, fun isDrawn => ?_⟩
    rcases Multiset.mem_cons.1 isDrawn with same | isDrawn
    · exact absurd (sound.once (i + 1) (by omega) 0 (Nat.succ_pos more) same) (by omega)
    · exact notDrawn isDrawn

/-- An identifier that has been drawn is used. -/
theorem use (sound : NamesSound ids used (id ::ₘ drawn) more) :
    NamesSound ids (used ++ [id]) drawn more where
  once := sound.once
  distinct := (Multiset.nodup_cons.1 sound.distinct).2
  unused other isDrawn := by
    rw [List.mem_append, List.mem_singleton]
    rintro (isUsed | rfl)
    · exact sound.unused other (Multiset.mem_cons_of_mem isDrawn) isUsed
    · exact (Multiset.nodup_cons.1 sound.distinct).1 isDrawn
  new i hi := by
    obtain ⟨notUsed, notDrawn⟩ := sound.new i hi
    rw [Multiset.mem_cons, not_or] at notDrawn
    rw [List.mem_append, List.mem_singleton, not_or]
    exact ⟨⟨notUsed, notDrawn.1⟩, notDrawn.2⟩

end NamesSound

/-! ### Founded engines -/

/-- What calls of an engine may rely on while others go on. -/
inductive Evidence where
  /-- An identifier that has been drawn and not been used. -/
  | drawn (id : Identifier)
  /-- Events that are in the log. -/
  | logged (events : List Event)

/-- The identifier that has been drawn. -/
def Evidence.drawn? : Evidence → Option Identifier
  | drawn id => some id
  | logged _ => none

theorem Evidence.filterMap_drawn (id : Identifier) (tokens : Multiset Evidence) :
    (drawn id ::ₘ tokens).filterMap drawn? = id ::ₘ tokens.filterMap drawn? :=
  Multiset.filterMap_cons_some _ _ _ rfl

theorem Evidence.filterMap_logged (events : List Event) (tokens : Multiset Evidence) :
    (logged events ::ₘ tokens).filterMap drawn? = tokens.filterMap drawn? :=
  Multiset.filterMap_cons_none _ _ rfl

namespace Engine

/-- An engine whose log is well-formed, with what it takes to keep it so. -/
structure Founded (more : Nat) (e : Engine) (tokens : Multiset Evidence) : Prop where
  /-- The log is well-formed. -/
  log : WellFormed e.log.events
  /-- Identifiers are new. -/
  names : NamesSound e.ids (e.log.events.filterMap Event.named?) (tokens.filterMap Evidence.drawn?) more
  /-- What has been seen in the log is there. -/
  seen : ∀ events, Evidence.logged events ∈ tokens → events ⊆ e.log.events
  /-- What the cache of places shows goes back to the log. -/
  places : e.places.Grounded e.log.events
  /-- So does what that of rooms shows. -/
  rooms : e.rooms.Grounded e.log.events

/-- Engines that differ only in what has nothing to do with being founded. -/
structure SameGround (e e' : Engine) : Prop where
  /-- The same events are in the log. -/
  log : e'.log.events = e.log.events
  /-- The same identifiers have been drawn, and the same are to come. -/
  ids : e'.ids = e.ids
  /-- The same places are cached. -/
  places : e'.places = e.places
  /-- So are the same rooms. -/
  rooms : e'.rooms = e.rooms

namespace Founded

variable {more : Nat} {e e' : Engine} {tokens part own others : Multiset Evidence} {event : Event}

theorem le (founded : e.Founded more tokens) (among : part ≤ tokens) : e.Founded more part :=
  { founded with
    names := founded.names.le (Multiset.filterMap_le_filterMap _ among)
    seen := fun events seen => founded.seen events (Multiset.mem_of_le among seen) }

theorem fewer (founded : e.Founded (more + 1) tokens) : e.Founded more tokens :=
  { founded with names := founded.names.fewer }

theorem congr (founded : e.Founded more tokens) (same : SameGround e e') :
    e'.Founded more tokens where
  log := same.log ▸ founded.log
  names := by
    rw [same.ids, same.log]
    exact founded.names
  seen events seen := same.log ▸ founded.seen events seen
  places := by
    rw [same.places, same.log]
    exact founded.places
  rooms := by
    rw [same.rooms, same.log]
    exact founded.rooms

/-- What is in the log is seen. -/
theorem see (founded : e.Founded more tokens) :
    e.Founded more (.logged e.log.events ::ₘ tokens) :=
  { founded with
    names := by
      rw [Evidence.filterMap_logged]
      exact founded.names
    seen := fun events seen => by
      rcases Multiset.mem_cons.1 seen with same | seen
      · rw [Evidence.logged.inj same]
        exact fun _ => id
      · exact founded.seen events seen }

/-- An identifier is drawn. -/
theorem draw (founded : e.Founded (more + 1) tokens) :
    Founded more { e with ids := e.ids.next.2 } (.drawn e.ids.next.1 ::ₘ tokens) :=
  { founded with
    names := by
      rw [Evidence.filterMap_drawn]
      exact founded.names.draw
    seen := fun events seen => founded.seen events (by simpa using seen) }

/-- An event is appended that fits the log, and names nothing but what its writer has an identifier
for. -/
theorem append {log : EventLog} (founded : e.Founded more (own + others))
    (appended : log.events = e.log.events ++ [event]) (fits : event.Fits e.log.events)
    (names : ∀ id, event.named? = some id → .drawn id ∈ own) :
    Founded more { e with log } (.logged [event] ::ₘ others) := by
  have longer : e.log.events ⊆ log.events := appended ▸ List.subset_append_left _ _
  refine ⟨appended ▸ founded.log.concat fits, ?_, ?_, founded.places.grow longer,
    founded.rooms.grow longer⟩
  · show NamesSound e.ids (log.events.filterMap Event.named?) _ more
    rw [Evidence.filterMap_logged, appended, List.filterMap_append]
    cases named : event.named? with
    | none =>
      rw [List.filterMap_cons_none named, List.filterMap_nil, List.append_nil]
      exact (founded.le (Multiset.le_add_left _ _)).names
    | some id =>
      rw [List.filterMap_cons_some named, List.filterMap_nil]
      obtain ⟨rest, rfl⟩ := Multiset.exists_cons_of_mem (names id named)
      have among : Evidence.drawn id ::ₘ others ≤ Evidence.drawn id ::ₘ rest + others := by
        rw [Multiset.cons_add]
        exact Multiset.cons_le_cons _ (Multiset.le_add_left _ _)
      have drawn := (founded.le among).names
      rw [Evidence.filterMap_drawn] at drawn
      exact drawn.use
  · intro events seen
    show events ⊆ log.events
    rcases Multiset.mem_cons.1 seen with same | seen
    · rw [Evidence.logged.inj same, appended]
      exact List.subset_append_right _ _
    · exact List.Subset.trans (founded.seen events (Multiset.mem_add.2 (Or.inr seen))) longer

end Founded

end Engine

end NoonDraw
