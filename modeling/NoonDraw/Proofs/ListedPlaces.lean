import NoonDraw.Proofs.DrawableWeights
import NoonDraw.Proofs.Effects

/-!
# Places as they are listed

A place is shown in two ways.  A call that adds it, takes it off the list or puts it back looks it up
by its key, looks up its user, and works out its chance alone; the list of the room is made from all
places, all users and all chances.  Both show what the world has (`World.placeViewAt`), so a call
answers with the entry that the place has on the list right after (`Engine.chances_agree`).  No order
of time is asked for: a call with an early date may find the place as a later event has left it.

The list has each live place once, oldest first, and those of one instant by their identifiers
(`World.pairwise_placeViews`).
-/

namespace NoonDraw

/-- Items sorted by time are in order of time, and those of one instant are as they were before. -/
theorem Instant.pairwise_mergeSort {α : Type} (time : α → Instant) {R : α → α → Prop}
    {xs : List α} (before : xs.Pairwise R) :
    (xs.mergeSort fun a b => decide (time a ≤ time b)).Pairwise fun a b =>
      time a < time b ∨ time a = time b ∧ R a b := by
  have sorted := List.pairwise_iff_getElem.1 (pairwise_le_mergeSort time xs)
  refine List.pairwise_iff_getElem.2 fun i j hi hj lt => ?_
  by_cases earlier : time (xs.mergeSort fun a b => decide (time a ≤ time b))[i] <
      time (xs.mergeSort fun a b => decide (time a ≤ time b))[j]
  · exact .inl earlier
  · have together := Instant.le_antisymm (sorted i j hi hj lt) (Instant.not_lt.1 earlier)
    have tied := before.filter fun a =>
      time a = time (xs.mergeSort fun a b => decide (time a ≤ time b))[j]
    rw [← filter_mergeSort_le, List.pairwise_filter, List.pairwise_iff_getElem] at tied
    exact .inr ⟨together, tied i j hi hj lt (decide_eq_true together) (decide_eq_true rfl)⟩

/-! ### The list of a world -/

namespace World

variable {w : World} {room : RoomId} {now : Instant}

/-- The live places of a room come in the order of their identifiers. -/
theorem pairwise_livePlacesIn :
    (w.livePlacesIn room).values.Pairwise fun a b => compare a.id b.id = .lt := by
  have sameId : ∀ entry ∈ (w.livePlacesIn room).entries, entry.2.id = entry.1 := by
    intro entry listed
    have live := Table.get?_eq_some_iff.2 listed
    rw [livePlacesIn, Table.get?_filter, Option.filter_eq_some_iff] at live
    exact Projection.place_id live.1
  refine List.pairwise_map.2 ((w.livePlacesIn room).ascending.imp_of_mem ?_)
  intro a b ha hb lt
  rwa [sameId a ha, sameId b hb]

theorem perm_placeViews (w : World) (room : RoomId) (now : Instant) :
    (w.placeViews room now).Perm ((w.livePlacesIn room).values.map (w.placeViewAt room now)) :=
  List.mergeSort_perm _ _

/-- The list has the live places, each of them once. -/
theorem map_placeViews_perm :
    ((w.placeViews room now).map PlaceView.place).Perm (w.livePlacesIn room).values := by
  have listed := (perm_placeViews w room now).map PlaceView.place
  rwa [List.map_map, show PlaceView.place ∘ w.placeViewAt room now = id from rfl, List.map_id]
    at listed

/-- The list is in order of time, and places of one instant are in the order of their identifiers. -/
theorem pairwise_placeViews :
    (w.placeViews room now).Pairwise fun a b => a.place.createdAt < b.place.createdAt ∨
      a.place.createdAt = b.place.createdAt ∧ compare a.place.id b.place.id = .lt :=
  Instant.pairwise_mergeSort (fun view : PlaceView => view.place.createdAt)
    (List.pairwise_map.2 pairwise_livePlacesIn)

/-- A place has one entry on the list if it is live, and none if it is deleted. -/
theorem filter_placeViews {id : PlaceId} {place : Place}
    (found : (w.state Projection.places (.room room)).get? id = some place) :
    ((w.placeViews room now).filter fun view => view.place.id = id) =
      if place.isDeleted then [] else [w.placeViewAt room now place] := by
  obtain rfl : place.id = id := Projection.place_id found
  have nodup : (w.livePlacesIn room).values.Nodup :=
    pairwise_livePlacesIn.imp fun lt same => by simp [same, Std.ReflOrd.compare_self] at lt
  have picked : ((w.livePlacesIn room).values.filter fun other => other.id = place.id).Perm
      (if place.isDeleted then [] else [place]) := by
    refine (List.perm_ext_iff_of_nodup (nodup.filter _) (by split <;> simp)).2 fun other => ?_
    rw [List.mem_filter, mem_livePlacesIn, decide_eq_true_iff]
    constructor
    · rintro ⟨⟨found', undeleted⟩, sameId⟩
      rw [sameId, found] at found'
      obtain rfl := Option.some.inj found'
      simp [undeleted]
    · intro listed
      split at listed
      next => cases listed
      next undeleted =>
        obtain rfl := List.mem_singleton.1 listed
        exact ⟨⟨found, by simpa using undeleted⟩, rfl⟩
  have chosen := (perm_placeViews w room now).filter
    fun view => view.place.id = place.id
  rw [List.filter_map] at chosen
  have shown := chosen.trans (picked.map (w.placeViewAt room now))
  split
  next deleted =>
    rw [if_pos deleted] at shown
    exact shown.eq_nil
  next undeleted =>
    rw [if_neg undeleted] at shown
    exact List.perm_singleton.1 shown

end World

namespace Engine

variable {w : World} {supply : Nat} {e : Engine} {room : RoomId} {now : Instant}

/-! ### Calls about places -/

/-- What a call about a place answers in a world, if it leaves some events in the log: it is accepted
exactly if what it needs is there, and it shows a place that the room has then, the one it was given
if any. -/
def ShowsPlace (w : World) (room : RoomId) (now : Instant) (given : Option PlaceId) (there : Prop)
    (r : Except Failure PlaceView) (events : List Event) : Prop :=
  ((∃ view, r = .ok view) ↔ there) ∧ ∀ view, r = .ok view → ∃ place,
    ({ w with events }.state Projection.places (.room room)).get? place.id = some place ∧
      (∀ id, given = some id → place.id = id) ∧ view = { w with events }.placeViewAt room now place

/-- A place that has been made is shown, told and answered. -/
theorem placeView_shows {id : PlaceId} {given : Option PlaceId} {there : Prop} (holds : there)
    (isGiven : ∀ i, given = some i → id = i) (notification : PlaceView → Notification) {made : Event}
    (logged : made ∈ w.events) (inRoom : made.room = room) (isPlace : made.place = some id)
    (created : made.kind = .placeCreated) :
    (placeView room id now >>= fun view => tell (notification view) >>= fun _ =>
      (pure view : Op PlaceView)).Ensures w 0 (ShowsPlace w room now given there) := by
  obtain ⟨place, found⟩ := Option.isSome_iff_exists.1
    (isSome_place_iff.2 ⟨made, logged, inRoom, isPlace, created⟩)
  refine (placeView_settles now found).bind ((tell_ensures _).bind (.pure ?_))
  obtain rfl : place.id = id := Projection.place_id found
  refine ⟨iff_of_true ⟨_, rfl⟩ holds, ?_⟩
  rintro view ⟨⟩
  exact ⟨place, found, isGiven, rfl⟩

/-- A call that is refused for what is missing shows nothing. -/
theorem shows_refused {given : Option PlaceId} {there : Prop} {f : Failure} {events : List Event}
    (missing : ¬ there) : ShowsPlace w room now given there (.error f) events :=
  ⟨iff_of_false nofun missing, nofun⟩

theorem createPlace_shows (user : UserId) (name : String) :
    (createPlace user room name now).Ensures w 2 (ShowsPlace w room now none
      ((Text.trim name).isEmpty = false ∧ (roomIn room w.events).isSome)) := by
  by_cases blank : (Text.trim name).isEmpty
  · have refused : (checkName .place name).Settles w (.error (.blankName .place)) := by
      simp only [checkName, if_pos blank]
      exact .throw _
    refine (Op.Ensures.mono refused.bind_error ?_).le (Nat.zero_le 2)
    rintro _ _ ⟨rfl, -⟩
    exact shows_refused fun there => by simp [blank] at there
  have named : (checkName .place name).Settles w (.ok (Text.trim name)) := by
    simp only [checkName, if_neg blank]
    exact .pure _
  refine named.bind ?_
  cases found : roomIn room w.events with
  | none =>
    refine (Op.Ensures.mono (existingRoom_missing found).bind_error ?_).le (Nat.zero_le 2)
    rintro _ _ ⟨rfl, -⟩
    exact shows_refused fun there => by simp at there
  | some r =>
    refine (existingRoom_settles found).bind (Op.Ensures.bind (m := 1) drawId_ensures ?_ ?_)
    · rintro f events ⟨⟨i, drawn⟩, -⟩
      cases drawn
    · rintro i events ⟨-, rfl⟩
      apply write_ensures
      intro eventId
      exact placeView_shows ⟨by simpa using blank, rfl⟩ (by simp) _ List.mem_concat_self rfl rfl rfl

theorem togglePlace_shows (kind : EventKind) (user : UserId) (id : PlaceId) :
    (togglePlace kind user room id now).Ensures w 1 (ShowsPlace w room now (some id)
      ((w.state Projection.places (.room room)).get? id).isSome) := by
  cases found : (w.state Projection.places (.room room)).get? id with
  | none =>
    refine (Op.Ensures.mono (togglePlace_missing user found) ?_).le (Nat.zero_le 1)
    rintro _ _ ⟨rfl, -⟩
    exact shows_refused Bool.false_ne_true
  | some place =>
    obtain ⟨made, logged, inRoom, isPlace, created⟩ :=
      isSome_place_iff.1 (Option.isSome_iff_exists.2 ⟨place, found⟩)
    refine (place?_settles room id).bind ?_
    rw [found]
    apply write_ensures
    intro eventId
    exact placeView_shows rfl (fun _ same => Option.some.inj same) _
      (List.mem_append_left _ logged) inRoom isPlace created

/-! ### What is shown and what is listed -/

/-- A call about a place of a room, and the list of the room right after it.  The call is accepted
exactly if what it needs is there.  The place it shows, the one it was given if any, has a single
entry on the list then, just as it is shown; a place shown as deleted has no chance and no entry. -/
def ShownAsListed (call : Op PlaceView) (room : RoomId) (now : Instant) (given : Option PlaceId)
    (there : Prop) (e : Engine) : Prop :=
  ∃ r e', call.run e = (some r, e') ∧ ((∃ view, r = .ok view) ↔ there) ∧
    ∀ view, r = .ok view → (∀ id, given = some id → view.place.id = id) ∧
      (view.place.isDeleted → view.chance = 0.0) ∧
      ∃ views, (listPlaces room now).Gives e' views ∧
        (views.filter fun listed => listed.place.id = view.place.id) =
          if view.place.isDeleted then [] else [view]

/-- What is seen of a place that is shown, as soon as it is known whether it is deleted. -/
theorem ShownAsListed.of_answer {call : Op PlaceView} {given : Option PlaceId} {there : Prop}
    {deleted : Bool} (agrees : ShownAsListed call room now given there e)
    (answer : (call.run e).1.map (Except.map fun view => view.place.isDeleted) =
      some (.ok deleted)) :
    ∃ view e' views, call.run e = (some (.ok view), e') ∧ view.place.isDeleted = deleted ∧
      (deleted → view.chance = 0.0) ∧ (listPlaces room now).Gives e' views ∧
      (views.filter fun listed => listed.place.id = view.place.id) =
        if deleted then [] else [view] := by
  obtain ⟨r, e', ran, -, shown⟩ := agrees
  rw [ran] at answer
  cases r with
  | error f => simp [Except.map] at answer
  | ok view =>
    obtain rfl : view.place.isDeleted = deleted := by simpa [Except.map] using answer
    obtain ⟨-, chance, views, gives, listed⟩ := shown view rfl
    exact ⟨view, e', views, ran, rfl, chance, gives, listed⟩

theorem Speaks.shownAsListed {call : Op PlaceView} {given : Option PlaceId} {there there' : Prop}
    {n : Nat} (speaks : e.Speaks w (supply + n))
    (shows : call.Ensures w n (ShowsPlace w room now given there)) (same : there ↔ there') :
    ShownAsListed call room now given there' e := by
  obtain ⟨r, e', events, ran, speaks', accepted, shown⟩ := shows.speaks speaks
  refine ⟨r, e', ran, accepted.trans same, fun view answer => ?_⟩
  obtain ⟨place, found, isGiven, rfl⟩ := shown view answer
  refine ⟨isGiven, fun deleted => if_pos deleted, _, (listPlaces_settles room now).gives speaks', ?_⟩
  exact World.filter_placeViews found

/-- An engine whose stores do not fail any more, and whose directory has some users. -/
def withUsers (e : Engine) (users : Table UserId User) : Engine :=
  { e.recovered with directory := { users } }

theorem Serves.withUsers (serves : e.Serves w supply) (users : Table UserId User) :
    (e.withUsers users).Speaks { w with users } supply :=
  ⟨{ serves with users := rfl }, ⟨fun _ => rfl, fun _ => rfl, fun _ => rfl⟩⟩

variable (user : UserId)

theorem Speaks.createPlace_shownAsListed (speaks : e.Speaks w (supply + 2)) (name : String) :
    ShownAsListed (createPlace user room name now) room now none
      ((Text.trim name).isEmpty = false ∧ ∃ r, (room? room).Gives e (some r)) e := by
  refine speaks.shownAsListed (createPlace_shows user name) (and_congr_right fun _ => ?_)
  exact Op.Gives.isSome_iff ((room?_settles room).gives speaks)

theorem Speaks.togglePlace_shownAsListed (speaks : e.Speaks w (supply + 1)) (kind : EventKind)
    (id : PlaceId) :
    ShownAsListed (togglePlace kind user room id now) room now (some id)
      (∃ place, (place? room id).Gives e (some place)) e :=
  speaks.shownAsListed (togglePlace_shows kind user id)
    (Op.Gives.isSome_iff ((place?_settles room id).gives speaks))

/-- After any commands, and whatever users there are, the calls about places that meet no outage and
the list of places agree.  A place can be added under any name that is not blank, to a room that there
is; it can be taken off the list or put back if the room has it.  Whatever the date of the call, the
place it shows has one entry on the list of that date right after, which is the same in place, user
and chance; or it is shown as deleted and without a chance, and has no entry.  The list of any date
has each live place once, oldest first, and those of one instant by their identifiers. -/
theorem chances_agree (settings : Settings) (entropy : UInt64) (log : EventLog)
    (directory : Directory) (ids : IdSupply) (commands : List Command) (users : Table UserId User)
    (user : UserId) (room : RoomId) (now : Instant) (ungated : log.gated = false)
    (distinct : (Loaded.ids log.events).Nodup)
    (fresh : ids.FreshFor log.events (2 + 2 * commands.length)) :
    let e := (runAll commands (start settings entropy log directory ids)).withUsers users
    (∀ name, ShownAsListed (createPlace user room name now) room now none
      ((Text.trim name).isEmpty = false ∧ ∃ r, (room? room).Gives e (some r)) e) ∧
    (∀ id, ShownAsListed (deletePlace user room id now) room now (some id)
      (∃ place, (place? room id).Gives e (some place)) e) ∧
    (∀ id, ShownAsListed (restorePlace user room id now) room now (some id)
      (∃ place, (place? room id).Gives e (some place)) e) ∧
    ∀ t, ∃ views, (listPlaces room t).Gives e views ∧
      (views.map PlaceView.place).Perm (e.livePlacesIn room).values ∧
      views.Pairwise fun a b => a.place.createdAt < b.place.createdAt ∨
        a.place.createdAt = b.place.createdAt ∧ compare a.place.id b.place.id = .lt := by
  intro e
  obtain ⟨w, serves⟩ := runAll_start_serves settings entropy directory ungated distinct fresh
  have speaks := serves.withUsers users
  refine ⟨speaks.createPlace_shownAsListed user,
    speaks.togglePlace_shownAsListed user .placeDeleted,
    speaks.togglePlace_shownAsListed user .placeRestored, fun t => ?_⟩
  refine ⟨_, (listPlaces_settles room t).gives speaks, ?_, World.pairwise_placeViews⟩
  rw [speaks.serves.livePlacesIn]
  exact World.map_placeViews_perm

/-- A place is added under an earlier date than the room, and it is listed as it is shown; a place
that is taken off the list is shown without a chance. -/
theorem chances_agree_openedPlace :
    let users := (Directory.ofUsers [⟨⟨"anna"⟩, "Anna"⟩]).users
    let e := (runAll openedPlace (start {} 0 {} {} (numbered 0))).withUsers users
    (∃ view e' views, (createPlace ⟨"anna"⟩ ⟨.ofNat 1⟩ "ramen" (.ofSeconds (-1))).run e =
        (some (.ok view), e') ∧ view.place.isDeleted = false ∧
      (listPlaces ⟨.ofNat 1⟩ (.ofSeconds (-1))).Gives e' views ∧
      (views.filter fun listed => listed.place.id = view.place.id) = [view]) ∧
    ∃ view e' views, (deletePlace ⟨"bert"⟩ ⟨.ofNat 1⟩ ⟨.ofNat 3⟩ default).run e =
        (some (.ok view), e') ∧ view.place.isDeleted ∧ view.chance = 0.0 ∧
      (listPlaces ⟨.ofNat 1⟩ default).Gives e' views ∧
      (views.filter fun listed => listed.place.id = view.place.id) = [] := by
  intro users e
  have added : ((createPlace ⟨"anna"⟩ ⟨.ofNat 1⟩ "ramen" (.ofSeconds (-1))).run e).1.map
      (Except.map fun view => view.place.isDeleted) = some (.ok false) := by decide +kernel
  have deleted : ((deletePlace ⟨"bert"⟩ ⟨.ofNat 1⟩ ⟨.ofNat 3⟩ default).run e).1.map
      (Except.map fun view => view.place.isDeleted) = some (.ok true) := by decide +kernel
  obtain ⟨creates, -⟩ := chances_agree {} 0 {} {} (numbered 0) openedPlace users ⟨"anna"⟩ ⟨.ofNat 1⟩
    (.ofSeconds (-1)) rfl .nil ⟨by decide, by simp⟩
  obtain ⟨-, deletes, -⟩ := chances_agree {} 0 {} {} (numbered 0) openedPlace users ⟨"bert"⟩
    ⟨.ofNat 1⟩ default rfl .nil ⟨by decide, by simp⟩
  obtain ⟨view, e₁, views, ran, isLive, -, gives, listed⟩ := (creates "ramen").of_answer added
  obtain ⟨view', e₂, views', ran', isDeleted, chance, gives', unlisted⟩ :=
    (deletes ⟨.ofNat 3⟩).of_answer deleted
  exact ⟨⟨view, e₁, views, ran, isLive, gives, listed⟩,
    view', e₂, views', ran', isDeleted, chance rfl, gives', unlisted⟩

end Engine

end NoonDraw
