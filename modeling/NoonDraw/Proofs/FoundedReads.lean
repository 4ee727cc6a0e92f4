import NoonDraw.Proofs.IdleCalls
import NoonDraw.Proofs.WellFormedLog

/-!
# What reads find is in the log

A call reads through caches that may be behind the log, and behind each other.  But what a cache shows
goes back to the log, and what is in the log stays there.  So a read leaves its reader with evidence
that what it has found has been logged (`Learns`), whatever else goes on meanwhile.

`founding` is the protocol that keeps this so; its states are those of `Engine.Founded`.
-/

namespace NoonDraw.Engine

open Event

variable {α β : Type} {held part : Multiset Evidence}

/-- The protocol that keeps an engine founded. -/
def founding : Protocol Engine Evidence := ⟨Founded, Founded.fewer⟩

/-- Evidence may be given up at any time. -/
theorem founding_shift (among : part ≤ held) : founding.Shift held part :=
  fun _ _ _ founded => Founded.le founded (add_le_add_left among _)

theorem harmless_of_same {act : Engine → Engine} (same : ∀ e, SameGround e (act e)) :
    founding.Harmless act :=
  fun _ e _ founded => Founded.congr founded (same e)

theorem founding_ignoresAccess : IgnoresAccess founding :=
  fun _ same => harmless_of_same fun e => ⟨(same e).events, rfl, rfl, rfl⟩

/-! ### Reads -/

/-- A process that ends with a value which is good by what it has seen in the log. -/
structure Learns (p : Process Engine α) (good : List Event → α → Prop) : Prop where
  /-- It keeps to the protocol, and has evidence of what it has seen. -/
  keeps : p.Keeps founding (fun a held => ∃ logged, held = {.logged logged} ∧ good logged a)
    (fun held => held = 0) 0

/-- What has been learnt may be left alone. -/
theorem Learns.idle {p : Process Engine α} {good : List Event → α → Prop} (learns : Learns p good) :
    p.Idle founding := by
  have forgets : p.Keeps founding (fun _ held => held = 0) (fun held => held = 0) 0 := by
    rw [← Process.bind_done p]
    refine learns.keeps.bind fun a held _ => Process.Keeps.shift ?_ (founding_shift (Multiset.zero_le held))
    exact .done rfl
  exact .of_keeps forgets

/-- Harmless steps after which no evidence is left. -/
theorem forget_steps {acts : List (Engine → Engine)} (harmless : ∀ act ∈ acts, founding.Harmless act)
    (held : Multiset Evidence) : founding.Steps (fun held => held = 0) acts held :=
  (Protocol.harmless_steps harmless 0).shift (founding_shift (Multiset.zero_le held))

/-- A read of the log sees what it reads. -/
theorem readLog_learns (scope : Scope) (kinds : List EventKind) {drop : List (Engine → Engine)}
    (left : ∀ act ∈ drop, founding.Harmless act) : Learns (readLog scope kinds drop)
      fun logged r => ∀ events, r = .ok events → events = EventLog.select logged scope kinds := by
  refine ⟨readLog_keeps founding_ignoresAccess (forget_steps left 0) fun more e others founded => ?_⟩
  rw [zero_add] at founded
  refine ⟨{.logged e.log.events}, ?_, forget_steps left _, ⟨_, rfl, ?_⟩, fun _ => ⟨_, rfl, ?_⟩⟩
  · rw [Multiset.singleton_add]
    exact Founded.see founded
  · rintro _ ⟨⟩
    rfl
  · rintro _ ⟨⟩

section Caches

variable {κ ε : Type} [Key κ] {p : Projection κ ε} {c : CacheOf p} {scope : Scope}

/-- A cache that shows only what goes back to the log, as long as the engine is founded. -/
structure CacheOf.GoesBack (c : CacheOf p) : Prop where
  /-- It is a cache of an engine. -/
  proper : c.Proper
  /-- Its entities have been created. -/
  origins : p.HasOrigins
  /-- It goes back to the log. -/
  grounded : ∀ {more : Nat} {e : Engine} {tokens : Multiset Evidence}, e.Founded more tokens →
    (c.get e).Grounded e.log.events
  /-- Another one that does may take its place. -/
  founded_set : ∀ {more : Nat} {e : Engine} {tokens : Multiset Evidence} {cache : Cache p},
    e.Founded more tokens → cache.Grounded e.log.events → (c.set e cache).Founded more tokens

/-- What has been read of a scope is still there. -/
theorem Founded.eventsIn_subset {more : Nat} {e : Engine} {logged : List Event}
    {others : Multiset Evidence} (founded : e.Founded more ({.logged logged} + others))
    (p : Projection κ ε) (scope : Scope) : p.eventsIn scope logged ⊆ p.eventsIn scope e.log.events :=
  Projection.eventsIn_subset scope
    (founded.seen logged (Multiset.mem_add.2 (Or.inl (Multiset.mem_singleton_self _))))

theorem placeCache_goesBack : placeCache.GoesBack :=
  ⟨placeCache_proper, Projection.places_hasOrigins, Founded.places,
    fun founded grounded => { founded with places := grounded }⟩

theorem roomCache_goesBack : roomCache.GoesBack :=
  ⟨roomCache_proper, Projection.rooms_hasOrigins, Founded.rooms,
    fun founded grounded => { founded with rooms := grounded }⟩

variable (goesBack : c.GoesBack)

include goesBack

/-- A change of the cache that needs nothing but what the cache has. -/
theorem CacheOf.GoesBack.harmless {f : Cache p → Cache p}
    (grounded : ∀ cache events, cache.Grounded events → (f cache).Grounded events) :
    founding.Harmless (c.modify f) :=
  fun _ _ _ founded => goesBack.founded_set founded (grounded _ _ (goesBack.grounded founded))

/-- A scope that is loaded goes back to what has been seen in the log. -/
theorem readLoaded_learns (isScope : p.IsScope scope) (view : Loaded κ ε → β) :
    Learns (readLoaded c scope view) fun logged r => ∀ b, r = .ok b →
      ∃ l : Loaded κ ε, l.Grounded p (p.eventsIn scope logged) ∧ b = view l := by
  have abandons : ∀ act ∈ [c.modify (·.abandon scope)], founding.Harmless act :=
    List.forall_mem_singleton.2 (goesBack.harmless fun _ _ grounded => grounded.abandon scope)
  refine ⟨.bind (m := fun (found : Option (Loaded κ ε)) held => found.elim (held = 0) fun l =>
    ∃ logged, held = {.logged logged} ∧ l.Grounded p (p.eventsIn scope logged))
      (.suspend (.nil rfl) ?_) ?_⟩
  · intro more e others _ founded
    have founded := Founded.fewer founded
    rw [zero_add] at founded
    dsimp only
    cases loaded : (c.get e).loaded? scope with
    | some l =>
      refine ⟨{.logged e.log.events}, ?_, _, rfl, (goesBack.grounded founded).loaded? isScope loaded⟩
      rw [Multiset.singleton_add]
      exact Founded.see founded
    | none =>
      refine ⟨0, ?_, rfl⟩
      rw [zero_add]
      exact goesBack.founded_set founded ((goesBack.grounded founded).claim scope)
  rintro (_ | l) held known
  · obtain rfl := known
    refine .bind (readLog_learns scope p.kinds abandons).keeps ?_
    rintro (cause | events) _ ⟨logged, rfl, reads⟩
    · refine .bind (.steps (Protocol.harmless_steps abandons _)) ?_
      rintro _ _ rfl
      refine .done ⟨logged, rfl, ?_⟩
      rintro _ ⟨⟩
    · obtain rfl := reads events rfl
      refine .instant fun more e others _ founded => ?_
      have founded := Founded.fewer founded
      have among := founded.eventsIn_subset p scope
      have installed := (goesBack.grounded founded).install goesBack.origins among
      refine ⟨{.logged e.log.events}, ?_, _, rfl, ?_⟩
      · rw [Multiset.singleton_add, ← goesBack.proper.log_set e]
        exact Founded.see (goesBack.founded_set (founded.le (Multiset.le_add_left _ _)) installed)
      · rintro _ ⟨⟩
        refine ⟨_, ?_, rfl⟩
        rw [CacheOf.modify, goesBack.proper.get_set]
        cases loaded : ((c.get e).install scope _).loaded? scope with
        | some l => exact installed.loaded? isScope loaded
        | none => exact .ofEvents goesBack.origins among
  · obtain ⟨logged, rfl, grounded⟩ := known
    refine .done ⟨logged, rfl, ?_⟩
    rintro _ ⟨⟩
    exact ⟨l, grounded, rfl⟩

/-- An entity that is found was created by an event that has been seen in the log. -/
theorem readEntry_learns (isScope : p.IsScope scope) (key : κ) :
    Learns (readEntry c scope key) fun logged r => ∀ entity, r = .ok (some entity) →
      p.Created (p.eventsIn scope logged) key := by
  have missed : founding.Harmless (c.modify Cache.miss) := goesBack.harmless fun _ _ grounded => grounded
  refine ⟨.bind (m := fun (found : Option (Option ε) × UInt64) held => found.1.elim (held = 0)
    fun entry => ∃ logged, held = {.logged logged} ∧
      (entry.isSome → p.Created (p.eventsIn scope logged) key)) (.instant ?_) ?_⟩
  · intro more e others _ founded
    have founded := Founded.fewer founded
    rw [zero_add] at founded
    dsimp only
    cases found : (c.get e).lookup scope key with
    | some entry =>
      refine ⟨{.logged e.log.events}, ?_, _, rfl, (goesBack.grounded founded).lookup isScope found⟩
      rw [Multiset.singleton_add]
      exact Founded.see founded
    | none =>
      refine ⟨0, ?_, rfl⟩
      rw [zero_add]
      exact missed more e others founded
  rintro ⟨_ | entry, begun⟩ held known
  · obtain rfl := known
    refine .bind (readLog_learns scope p.kinds (by simp)).keeps ?_
    rintro (cause | events) _ ⟨logged, rfl, reads⟩
    · refine .done ⟨logged, rfl, ?_⟩
      rintro _ ⟨⟩
    · obtain rfl := reads events rfl
      refine .instant fun more e others _ founded => ?_
      have founded := Founded.fewer founded
      have among := founded.eventsIn_subset p scope
      refine ⟨{.logged logged}, goesBack.founded_set founded
        ((goesBack.grounded founded).record goesBack.origins among key begun), logged, rfl, ?_⟩
      intro entity found
      exact goesBack.origins.materialize (Option.isSome_iff_exists.2 ⟨entity, Except.ok.inj found⟩)
  · obtain ⟨logged, rfl, created⟩ := known
    refine .done ⟨logged, rfl, fun entity found => created ?_⟩
    rw [Except.ok.inj found]
    rfl

end Caches

/-! ### The reads of calls -/

/-- Who has learnt something has evidence of it, beside what it had. -/
theorem Learns.yields {p : Process Engine (Except StoreError α)}
    {good : List Event → Except StoreError α → Prop} (learns : Learns p good) (operation : Operation)
    (held : Multiset Evidence) : (Op.fromStore operation p).Yields founding held fun a held' =>
      ∃ logged, held' = .logged logged ::ₘ held ∧ good logged (.ok a) := by
  have framed := learns.keeps.frame held
  rw [zero_add] at framed
  refine .fromStore (framed.mono (fun _ _ => id) fun _ _ => trivial) ?_ fun _ _ _ => trivial
  rintro a _ ⟨_, rfl, logged, rfl, isGood⟩
  exact ⟨logged, Multiset.singleton_add _ _, isGood⟩

variable {room : RoomId} {id : PlaceId} {logged : List Event}

theorem opened_of_created
    (created : Projection.rooms.Created (Projection.rooms.eventsIn (.room room) logged) room) :
    Opened room logged := by
  obtain ⟨e, he, creates⟩ := created
  obtain ⟨kind, isRoom⟩ := Projection.rooms_creates.1 creates
  exact ⟨e, (List.mem_filter.1 he).1, kind, isRoom⟩

theorem added_of_created
    (created : Projection.places.Created (Projection.places.eventsIn (.room room) logged) id) :
    Added room id logged := by
  obtain ⟨e, he, creates⟩ := created
  obtain ⟨kind, isPlace⟩ := Projection.places_creates.1 creates
  obtain ⟨there, isIn⟩ := List.mem_filter.1 he
  have isRoom : e.room = room := by simpa [Scope.holds] using (Bool.and_eq_true_iff.1 isIn).1
  exact ⟨e, there, kind, isPlace, isRoom⟩

/-- A room that is found has been opened. -/
theorem existingRoom_yields (room : RoomId) (held : Multiset Evidence) :
    (existingRoom room).Yields founding held fun _ held' =>
      ∃ logged, held' = .logged logged ::ₘ held ∧ Opened room logged := by
  refine .bind ((readEntry_learns roomCache_goesBack (isScope_room room).2.2.2 room).yields .loadRoom
    held) ?_
  rintro (_ | found) _ ⟨logged, rfl, created⟩
  · exact .throw trivial
  · exact .pure ⟨logged, rfl, opened_of_created (created found rfl)⟩

/-- A place that is found has been added to its room. -/
theorem place?_yields (room : RoomId) (id : PlaceId) (held : Multiset Evidence) :
    (place? room id).Yields founding held fun found held' =>
      ∃ logged, held' = .logged logged ::ₘ held ∧ (found.isSome → Added room id logged) := by
  refine ((readEntry_learns placeCache_goesBack (isScope_room room).1 id).yields .loadPlace
    held).mono ?_ fun _ _ => trivial
  rintro found _ ⟨logged, rfl, created⟩
  refine ⟨logged, rfl, fun there => ?_⟩
  obtain ⟨place, rfl⟩ := Option.isSome_iff_exists.1 there
  exact added_of_created (created place rfl)

/-- So have the places that are on the list of a room. -/
theorem livePlaces_yields (room : RoomId) (held : Multiset Evidence) :
    (livePlaces room).Yields founding held fun places held' =>
      ∃ logged, held' = .logged logged ::ₘ held ∧ ∀ id ∈ places.keys, Added room id logged := by
  refine .bind ((readLoaded_learns placeCache_goesBack (isScope_room room).1 Loaded.state).yields
    .loadPlaces held) ?_
  rintro places _ ⟨logged, rfl, found⟩
  obtain ⟨l, grounded, rfl⟩ := found places rfl
  refine .pure ⟨logged, rfl, fun id isLive => ?_⟩
  obtain ⟨⟨id, place⟩, entry, rfl⟩ := List.mem_map.1 isLive
  have there := Table.get?_eq_some_iff.2 entry
  rw [Table.get?_filter] at there
  obtain ⟨isPlace, -⟩ := Option.filter_eq_some_iff.1 there
  exact added_of_created (grounded.state id (isPlace ▸ rfl))

theorem founding_allowsReads : AllowsReads founding where
  placesOf room :=
    .fromStore (readLoaded_learns placeCache_goesBack (isScope_room room).1 Loaded.state).idle
  place? room id := .fromStore (readEntry_learns placeCache_goesBack (isScope_room room).1 id).idle
  rollsOf _ := .fromStore (readLoaded_idle founding_ignoresAccess
    (fun _ => harmless_of_same fun _ => ⟨rfl, rfl, rfl, rfl⟩) _ _)
  boostsOf _ := .fromStore (readLoaded_idle founding_ignoresAccess
    (fun _ => harmless_of_same fun _ => ⟨rfl, rfl, rfl, rfl⟩) _ _)
  room? room :=
    .fromStore (readEntry_learns roomCache_goesBack (isScope_room room).2.2.2 room).idle
  membershipsOf _ := (Op.Idle.fromStore (readLoaded_idle founding_ignoresAccess
    (fun _ => harmless_of_same fun _ => ⟨rfl, rfl, rfl, rfl⟩) _ _)).bind
      fun _ => .pure _
  user? _ := .fromStore (.suspend (harmless_of_same fun _ => ⟨rfl, rfl, rfl, rfl⟩) (by simp))
  users := .fromStore (.suspend (harmless_of_same fun _ => ⟨rfl, rfl, rfl, rfl⟩) (by simp))

end NoonDraw.Engine
