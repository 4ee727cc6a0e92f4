import NoonDraw.Proofs.CacheInvariant

/-!
# What caches show goes back to the log

An entity that a projection makes of some events goes back to one of them that makes it where there was
nothing (`Projection.HasOrigins`).  So whatever a cache has been shown, in whatever order, and whatever
its calls have read: if all of it was in the log, then every entity in the cache was created by an event
of the log (`Cache.Grounded`).  This says less than that the cache is right, and holds also while
writes that are in the log have yet to be shown to the cache.
-/

namespace NoonDraw

/-! ### Projections -/

namespace Projection

section

variable {κ ε : Type} [Key κ] {p : Projection κ ε} {k : κ}

/-- Whether an event makes an entity where there was nothing. -/
def Creates (p : Projection κ ε) (e : Event) (k : κ) : Prop := ((p.apply ∅ e).get? k).isSome

/-- Whether one of some events creates an entity. -/
def Created (p : Projection κ ε) (events : List Event) (k : κ) : Prop := ∃ e ∈ events, p.Creates e k

/-- More events have more events in every scope. -/
theorem eventsIn_subset (scope : Scope) {events more : List Event} (among : events ⊆ more) :
    p.eventsIn scope events ⊆ p.eventsIn scope more := by
  intro e he
  obtain ⟨there, isIn⟩ := List.mem_filter.1 he
  exact List.mem_filter.2 ⟨among there, isIn⟩

/-- A projection all whose entities have been created. -/
def HasOrigins (p : Projection κ ε) : Prop :=
  ∀ (state : Table κ ε) (e : Event) (k : κ), ((p.apply state e).get? k).isSome →
    (state.get? k).isSome ∨ p.Creates e k

theorem Created.subset {events more : List Event} (created : p.Created events k)
    (among : events ⊆ more) : p.Created more k :=
  let ⟨e, he, creates⟩ := created
  ⟨e, among he, creates⟩

theorem HasOrigins.foldl (origins : p.HasOrigins) (events : List Event) {state : Table κ ε}
    (there : ((events.foldl p.step state).get? k).isSome) :
    (state.get? k).isSome ∨ p.Created events k := by
  induction events generalizing state with
  | nil => exact Or.inl there
  | cons e events ih =>
    rcases ih there with before | ⟨a, ha, creates⟩
    · unfold step at before
      split at before
      · exact (origins state e k before).imp_right fun creates => ⟨e, List.mem_cons_self, creates⟩
      · exact Or.inl before
    · exact Or.inr ⟨a, List.mem_cons_of_mem e ha, creates⟩

theorem HasOrigins.fold (origins : p.HasOrigins) {events : List Event}
    (there : ((p.fold events).get? k).isSome) : p.Created events k := by
  rcases origins.foldl events there with before | created
  · simp at before
  · exact created

theorem HasOrigins.materialize (origins : p.HasOrigins) {events : List Event}
    (there : ((p.materialize events).get? k).isSome) : p.Created events k :=
  (origins.fold there).subset fun _ he => Event.mem_sortByTime.1 he

/-- What an event makes of an entry by itself. -/
theorem HasOrigins.stepEntry (origins : p.HasOrigins) {e : Event} {entry : Option ε}
    (there : (Slot.stepEntry p e k entry).isSome) : entry.isSome ∨ p.Creates e k := by
  cases entry with
  | some entity => exact Or.inl rfl
  | none =>
    refine (origins ∅ e k there).imp_left fun before => ?_
    simp at before

/-- A projection has origins if no event leaves an entity but where there was one, or where it would
make one of nothing. -/
theorem Lawful.hasOrigins [DecidableEq κ] {transition : Event → Option ε → Option ε}
    (lawful : p.Lawful transition)
    (makes : ∀ e entry, (transition e entry).isSome → entry.isSome ∨ (transition e none).isSome) :
    p.HasOrigins := by
  intro state e k there
  rw [Creates, lawful.get?_apply]
  rw [lawful.get?_apply] at there
  split at there
  next touches =>
    rw [if_pos touches, Table.get?_empty]
    exact makes e _ there
  next => exact Or.inl there

end

theorem places_hasOrigins : places.HasOrigins := by
  refine places_lawful.hasOrigins fun e entry there => ?_
  cases kind : e.kind <;> simp_all [placeTransition]

theorem rooms_hasOrigins : rooms.HasOrigins := by
  refine rooms_lawful.hasOrigins fun e entry there => ?_
  cases kind : e.kind <;> simp_all [roomTransition]

theorem places_creates {e : Event} {place : PlaceId} :
    places.Creates e place ↔ e.kind = .placeCreated ∧ e.place = some place := by
  rw [Creates, places_lawful.get?_apply, Table.get?_empty]
  show Option.isSome (if e.place = some place then _ else _) ↔ _
  split
  next touches => cases kind : e.kind <;> simp [placeTransition, kind, touches]
  next => simp_all

theorem rooms_creates {e : Event} {room : RoomId} :
    rooms.Creates e room ↔ e.kind = .roomCreated ∧ e.room = room := by
  rw [Creates, rooms_lawful.get?_apply, Table.get?_empty]
  show Option.isSome (if some e.room = some room then _ else _) ↔ _
  split
  next touches => cases kind : e.kind <;> simp_all [roomTransition]
  next => simp_all

end Projection

variable {κ ε : Type} [Key κ] {p : Projection κ ε} {logged logged' : List Event} {e : Event}

/-! ### Loaded scopes -/

/-- A loaded scope that shows only what goes back to some events. -/
structure Loaded.Grounded (p : Projection κ ε) (logged : List Event) (l : Loaded κ ε) : Prop where
  /-- Its events are among them. -/
  events : l.events ⊆ logged
  /-- Its entities were created by one of them. -/
  state : ∀ k, (l.state.get? k).isSome → p.Created logged k

namespace Loaded.Grounded

variable {l : Loaded κ ε}

theorem grow (grounded : l.Grounded p logged) (longer : logged ⊆ logged') : l.Grounded p logged' :=
  ⟨fun _ he => longer (grounded.events he), fun _ there => (grounded.state _ there).subset longer⟩

theorem ofEvents (origins : p.HasOrigins) {events : List Event} (among : events ⊆ logged) :
    (Loaded.ofEvents p events).Grounded p logged where
  events _ he := among (Event.mem_sortByTime.1 he)
  state _ there := (origins.materialize there).subset among

theorem push (origins : p.HasOrigins) (grounded : l.Grounded p logged) (he : e ∈ logged) :
    (l.push p e).1.Grounded p logged := by
  unfold Loaded.push
  split
  · exact grounded
  split
  · refine ⟨List.append_subset.2 ⟨grounded.events, List.cons_subset.2 ⟨he, List.nil_subset _⟩⟩, fun k there => ?_⟩
    rcases origins l.state e k there with before | creates
    · exact grounded.state k before
    · exact ⟨e, he, creates⟩
  · have among : insertByTime e l.events ⊆ logged := by
      intro a ha
      rw [insertByTime, List.mem_append, List.mem_cons] at ha
      rcases ha with earlier | rfl | later
      · exact grounded.events ((List.takeWhile_prefix _).subset earlier)
      · exact he
      · exact grounded.events ((List.dropWhile_suffix _).subset later)
    exact ⟨among, fun k there => (origins.fold there).subset among⟩

end Loaded.Grounded

/-! ### Slots -/

namespace Slot

variable {s : Slot κ ε}

/-- A slot that shows only what goes back to some events. -/
structure Grounded (p : Projection κ ε) (logged : List Event) (s : Slot κ ε) : Prop where
  /-- The events observed during a load are among them. -/
  observed : ∀ events, s.collection = .populating events → events ⊆ logged
  /-- A loaded scope shows only what goes back to them. -/
  loaded : ∀ l, s.collection = .ready l → l.Grounded p logged
  /-- So do the entries looked up one by one. -/
  keys : ∀ k entry, s.keys.get? k = some entry → entry.isSome → p.Created logged k

/-- What a slot has observed during a load, after one more event. -/
theorem observe_populating {events : List Event}
    (populating : (s.observe p e).collection = .populating events) :
    ∃ before, s.collection = .populating before ∧ events = before ++ [e] := by
  cases state : s.collection with
  | ready l =>
    rw [(observe_ready state rfl).1] at populating
    cases populating
  | cold =>
    simp only [observe, state, observeKey] at populating
    split at populating
    · cases populating
    · cases touched : p.key e <;> simp [touched] at populating
  | populating before =>
    refine ⟨before, rfl, ?_⟩
    simp only [observe, state, observeKey] at populating
    split at populating
    · exact (Collection.populating.inj populating).symm
    · cases touched : p.key e <;> simp [touched] at populating <;> exact populating.symm

namespace Grounded

theorem empty : Grounded p logged ({} : Slot κ ε) where
  observed events populating := by cases populating
  loaded l ready := by cases ready
  keys k entry found := by cases found

theorem grow (grounded : s.Grounded p logged) (longer : logged ⊆ logged') :
    s.Grounded p logged' where
  observed events populating _ he := longer (grounded.observed events populating he)
  loaded l ready := (grounded.loaded l ready).grow longer
  keys k entry found there := (grounded.keys k entry found there).subset longer

theorem claim (grounded : s.Grounded p logged) :
    Grounded p logged { s with collection := .populating [] } where
  observed := by
    rintro events ⟨⟩
    exact List.nil_subset logged
  loaded l ready := by cases ready
  keys := grounded.keys

theorem abandon (grounded : s.Grounded p logged) : s.abandon.Grounded p logged := by
  unfold Slot.abandon
  split
  · exact ⟨fun _ => nofun, fun _ => nofun, grounded.keys⟩
  · exact grounded

theorem install (origins : p.HasOrigins) (grounded : s.Grounded p logged) {read : List Event}
    (among : read ⊆ logged) : (s.install p read).Grounded p logged := by
  have load {observed : List Event} (known : observed ⊆ logged) : Grounded p logged
      { s with
        collection := .ready (.ofEvents p (merge read observed))
        watermark := none
        keys := refreshed (.ofEvents p (merge read observed)) s.keys } := by
    have all : merge read observed ⊆ logged :=
      List.append_subset.2 ⟨among, fun a ha => known (List.mem_filter.1 ha).1⟩
    have isGrounded := Loaded.Grounded.ofEvents origins all
    refine ⟨fun _ => nofun, ?_, fun k entry found there => ?_⟩
    · rintro l ⟨⟩
      exact isGrounded
    · rw [refreshed_obeys _ _ k entry found] at there
      exact isGrounded.state k there
  unfold Slot.install
  split
  · exact grounded
  next observed populating => exact load (grounded.observed observed populating)
  · exact load (List.nil_subset logged)

theorem record (origins : p.HasOrigins) (grounded : s.Grounded p logged) {read : List Event}
    (among : read ⊆ logged) (key : κ) (begun : UInt64) :
    (s.record key begun read ((p.materialize read).get? key)).Grounded p logged := by
  unfold Slot.record
  split
  · refine ⟨grounded.observed, grounded.loaded, fun k entry found there => ?_⟩
    rw [Table.get?_insert] at found
    split at found
    next isKey =>
      obtain rfl := Std.LawfulEqOrd.eq_of_compare isKey
      rw [← Option.some.inj found] at there
      exact (origins.materialize there).subset among
    next => exact grounded.keys k entry found there
  · exact grounded

theorem observe (origins : p.HasOrigins) (grounded : s.Grounded p logged) (he : e ∈ logged) :
    (s.observe p e).Grounded p logged := by
  have observed : ∀ events, (s.observe p e).collection = .populating events → events ⊆ logged := by
    intro events populating
    obtain ⟨before, was, rfl⟩ := observe_populating populating
    exact List.append_subset.2 ⟨grounded.observed before was, List.cons_subset.2 ⟨he, List.nil_subset _⟩⟩
  by_cases ready : ∃ l, s.collection = .ready l
  · obtain ⟨l, ready⟩ := ready
    have isGrounded := (grounded.loaded l ready).push origins he
    cases pushed : l.push p e with
    | mk l' afresh =>
      rw [pushed] at isGrounded
      refine ⟨observed, fun l'' ready' => ?_, fun k entry found there => ?_⟩
      · rw [(observe_ready ready pushed).1] at ready'
        exact Collection.ready.inj ready' ▸ isGrounded
      · rcases get?_observe_ready ready pushed found with same | ⟨-, -, cached⟩
        · exact isGrounded.state k (same ▸ there)
        · exact grounded.keys k entry cached there
  · obtain ⟨stays, keys, -⟩ := observe_unready (p := p) (e := e) (s := s)
      fun l isReady => ready ⟨l, isReady⟩
    refine ⟨observed, fun l isReady => absurd isReady (stays l), fun k entry found there => ?_⟩
    rw [keys] at found
    obtain ⟨-, -, ⟨-, cached⟩ | ⟨old, -, cached, rfl⟩⟩ := get?_observeKey found
    · exact grounded.keys k entry cached there
    · rcases origins.stepEntry there with before | creates
      · exact grounded.keys k old cached before
      · exact ⟨e, he, creates⟩

theorem lookup (grounded : s.Grounded p logged) {key : κ} {entry : Option ε}
    (found : s.lookup key = some entry) (there : entry.isSome) : p.Created logged key := by
  unfold Slot.lookup at found
  split at found
  next cached => exact grounded.keys key _ (cached.trans found) there
  next =>
    split at found
    next l ready => exact (grounded.loaded l ready).state key (Option.some.inj found ▸ there)
    next => cases found
    next => cases found

end Grounded

end Slot

/-! ### Caches -/

namespace Cache

variable {c : Cache p} {events more : List Event} {scope : Scope}

/-- A cache that shows only what goes back to some events, each scope to its own. -/
def Grounded (events : List Event) (c : Cache p) : Prop :=
  ∀ scope, p.IsScope scope → (c.slot scope).Grounded p (p.eventsIn scope events)

theorem grounded_empty (events : List Event) : (∅ : Cache p).Grounded events :=
  fun _ _ => .empty

namespace Grounded

theorem grow (grounded : c.Grounded events) (longer : events ⊆ more) : c.Grounded more :=
  fun scope isScope => (grounded scope isScope).grow (Projection.eventsIn_subset scope longer)

/-- One slot changes. -/
theorem of_slot (grounded : c.Grounded events) (scope : Scope) {c' : Cache p} {s : Slot κ ε}
    (changed : ∀ other, c'.slot other = if other = scope then s else c.slot other)
    (again : p.IsScope scope → s.Grounded p (p.eventsIn scope events)) : c'.Grounded events := by
  intro other isScope
  rw [changed]
  split
  next same => exact same ▸ again (same ▸ isScope)
  next => exact grounded other isScope

theorem claim (grounded : c.Grounded events) (scope : Scope) : (c.claim scope).Grounded events :=
  grounded.of_slot scope (slot_claim c scope) fun isScope => (grounded scope isScope).claim

theorem abandon (grounded : c.Grounded events) (scope : Scope) : (c.abandon scope).Grounded events :=
  grounded.of_slot scope (slot_abandon c scope) fun isScope => (grounded scope isScope).abandon

theorem install (origins : p.HasOrigins) (grounded : c.Grounded events) {read : List Event}
    (among : read ⊆ p.eventsIn scope events) : (c.install scope read).Grounded events :=
  grounded.of_slot scope (slot_install c scope read) fun isScope =>
    (grounded scope isScope).install origins among

theorem record (origins : p.HasOrigins) (grounded : c.Grounded events) {read : List Event}
    (among : read ⊆ p.eventsIn scope events) (key : κ) (begun : UInt64) :
    (c.record scope key begun read).Grounded events :=
  grounded.of_slot scope (slot_record c scope key begun read) fun isScope =>
    (grounded scope isScope).record origins among key begun

theorem observe (cached : p.IsCached) (origins : p.HasOrigins) (grounded : c.Grounded events)
    (he : e ∈ events) : (c.observe e).Grounded events := by
  intro scope isScope
  rw [slot_observe]
  split
  next isIn =>
    refine (grounded scope isScope).observe origins ?_
    rw [cached.eventsIn_eq isScope]
    exact List.mem_filter.2 ⟨he, isIn⟩
  next => exact grounded scope isScope

theorem loaded? (grounded : c.Grounded events) (isScope : p.IsScope scope) {l : Loaded κ ε}
    (loaded : c.loaded? scope = some l) : l.Grounded p (p.eventsIn scope events) :=
  (grounded scope isScope).loaded l (loaded?_eq_some.1 loaded)

theorem lookup (grounded : c.Grounded events) (isScope : p.IsScope scope) {key : κ}
    {entry : Option ε} (found : c.lookup scope key = some entry) (there : entry.isSome) :
    p.Created (p.eventsIn scope events) key :=
  (grounded scope isScope).lookup found there

end Grounded

end Cache

end NoonDraw
