import NoonDraw.Proofs.LoadedScopes

/-!
# Draws

Rolls and boosts are kept under the events that recorded them, so each is made by one event
(`Projection.IsDraws`).  Listing them in replay order is therefore listing their events in order of
time, leaving out those that name no place (`IsDraws.listed_eq`), and two logs that hold the same
events list the same draws iff those of one instant stand in the same order (`IsDraws.listed_eq_iff`).
-/

namespace NoonDraw

namespace Event

/-- Whether an event is a roll or a boost. -/
def isDraw (e : Event) : Bool := e.kind = .rollCreated ∨ e.kind = .boostCreated

/-- The rolls and boosts of a room, in the order in which they were added. -/
def drawsOf (room : RoomId) (events : List Event) : List Event :=
  events.filter fun e => e.isDraw && e.room = room

/-- A draw of a room comes last of its draws. -/
theorem drawsOf_concat_own {e : Event} (isDraw : e.isDraw) (events : List Event) :
    drawsOf e.room (events ++ [e]) = drawsOf e.room events ++ [e] := by
  simp [drawsOf, isDraw]

/-- Another event is none of them. -/
theorem drawsOf_concat_other {room : RoomId} {e : Event} (other : ¬ (e.isDraw ∧ e.room = room))
    (events : List Event) : drawsOf room (events ++ [e]) = drawsOf room events := by
  have none' : [e].filter (fun e => e.isDraw && e.room = room) = [] := by simpa using other
  rw [drawsOf, List.filter_append, none', List.append_nil, drawsOf]

/-- An identifier that no two events share picks out its event. -/
theorem filter_id_eq {events : List Event} (distinct : (Loaded.ids events).Nodup) {e : Event}
    (he : e ∈ events) : (events.filter fun a => a.id = e.id) = [e] := by
  have nodup := List.Nodup.of_map Event.id distinct
  refine List.perm_singleton.1 ((List.perm_ext_iff_of_nodup (nodup.filter _)
    (List.nodup_singleton e)).2 fun a => ?_)
  simp only [List.mem_filter, decide_eq_true_eq, List.mem_singleton]
  constructor
  · rintro ⟨ha, same⟩
    exact List.inj_on_of_nodup_map distinct ha he same
  · rintro rfl
    exact ⟨he, rfl⟩

end Event

namespace Projection

variable {ε : Type} {p : Projection EventId ε} {kind : EventKind} {make : Event → Option ε}

/-- The entities of a room in replay order, as its events in the log have them. -/
def listed {κ : Type} [Key κ] [DecidableEq κ] (p : Projection κ ε) (room : RoomId)
    (events : List Event) : List ε :=
  (Loaded.ofEvents p (p.eventsIn (.room room) events)).inReplayOrder p

theorem listed_nil {κ : Type} [Key κ] [DecidableEq κ] (p : Projection κ ε) (room : RoomId) :
    p.listed room [] = [] := by
  have nothing : Event.sortByTime (p.eventsIn (.room room) []) = [] :=
    Event.sortByTime_of_inOrder List.Pairwise.nil
  simp [listed, Loaded.inReplayOrder, Loaded.ofEvents, nothing]

/-- The events of a room that make its draws. -/
def placed (p : Projection EventId ε) (room : RoomId) (events : List Event) : List Event :=
  (p.eventsIn (.room room) events).filter fun e => e.place.isSome

/-- What events of one kind make of nothing, each kept under its event. -/
structure IsDraws (p : Projection EventId ε) (kind : EventKind) (make : Event → Option ε) :
    Prop where
  /-- It is one of the projections that are cached. -/
  cached : p.IsCached
  /-- No other kind matters. -/
  kinds : p.kinds = [kind]
  /-- The events of a room add up by themselves. -/
  scope : ∀ e, p.scope e = .room e.room
  /-- Each event has an entry of its own. -/
  key : ∀ e, p.key e = some e.id
  /-- An entry is what its event makes of nothing. -/
  lawful : ∃ transition, p.Lawful transition ∧ ∀ e, transition e none = make e
  /-- An event that names a place makes an entry. -/
  isSome_make : ∀ e, (make e).isSome = (decide (e.kind = kind) && e.place.isSome)
  /-- An entry knows its event. -/
  make_inj : ∀ e a x, make e = some x → make a = some x → e.id = a.id

/-- A roll knows the event that made it. -/
theorem rollTransition_none {e : Event} {r : Roll} (made : rollTransition e none = some r) :
    r.id = e.id ∧ r.time = e.time := by
  unfold rollTransition at made
  split at made
  · obtain rfl := Option.some.inj made
    exact ⟨rfl, rfl⟩
  · cases made

/-- So does a boost. -/
theorem boostTransition_none {e : Event} {b : Boost} (made : boostTransition e none = some b) :
    b.id = e.id ∧ b.time = e.time := by
  unfold boostTransition at made
  split at made
  · obtain rfl := Option.some.inj made
    exact ⟨rfl, rfl⟩
  · cases made

theorem rolls_isDraws : rolls.IsDraws .rollCreated fun e => rollTransition e none where
  cached := .rolls
  kinds := rfl
  scope _ := rfl
  key _ := rfl
  lawful := ⟨rollTransition, by convert rolls_lawful, fun _ => rfl⟩
  isSome_make e := by cases h : e.kind <;> cases hp : e.place <;> simp [rollTransition, h, hp]
  make_inj e a x he ha := by rw [← (rollTransition_none he).1, (rollTransition_none ha).1]

theorem boosts_isDraws : boosts.IsDraws .boostCreated fun e => boostTransition e none where
  cached := .boosts
  kinds := rfl
  scope _ := rfl
  key _ := rfl
  lawful := ⟨boostTransition, by convert boosts_lawful, fun _ => rfl⟩
  isSome_make e := by cases h : e.kind <;> cases hp : e.place <;> simp [boostTransition, h, hp]
  make_inj e a x he ha := by rw [← (boostTransition_none he).1, (boostTransition_none ha).1]

theorem eraseDups_of_nodup {α : Type} [DecidableEq α] {xs : List α} (distinct : xs.Nodup) :
    xs.eraseDups = xs := by
  induction xs with
  | nil => rfl
  | cons x xs ih =>
    obtain ⟨new, rest⟩ := List.nodup_cons.1 distinct
    have kept : xs.filter (fun y => !y == x) = xs :=
      List.filter_eq_self.2 fun y hy => by simpa using fun same : y = x => new (same ▸ hy)
    rw [List.eraseDups_cons, kept, ih rest]

namespace IsDraws

theorem isScope (draws : p.IsDraws kind make) (room : RoomId) : p.IsScope (.room room) :=
  ⟨{ id := default, actor := default, room, kind, time := default }, draws.scope _⟩

theorem isIn_iff (draws : p.IsDraws kind make) {room : RoomId} {e : Event} :
    p.isIn (.room room) e = true ↔ e.kind = kind ∧ e.room = room := by
  simp [isIn, reads, draws.kinds, draws.scope]

theorem mem_eventsIn (draws : p.IsDraws kind make) {room : RoomId} {events : List Event} {e : Event} :
    e ∈ p.eventsIn (.room room) events ↔ e ∈ events ∧ e.kind = kind ∧ e.room = room := by
  rw [draws.cached.eventsIn_eq (draws.isScope room), List.mem_filter, draws.isIn_iff]

theorem eventsIn_singleton (draws : p.IsDraws kind make) (room : RoomId) (e : Event) :
    p.eventsIn (.room room) [e] = if e.kind = kind ∧ e.room = room then [e] else [] := by
  rw [draws.cached.eventsIn_singleton (draws.isScope room)]
  simp only [draws.isIn_iff]

/-- An entry is what its event makes of nothing. -/
theorem get?_fold (draws : p.IsDraws kind make) {events : List Event}
    (reads : ∀ e ∈ events, p.reads e.kind) (distinct : (Loaded.ids events).Nodup)
    {e : Event} (he : e ∈ events) : (p.fold events).get? e.id = make e := by
  obtain ⟨transition, lawful, makes⟩ := draws.lawful
  -- of all events only `e` touches its entry
  have alone : (events.filter fun a => p.reads a.kind && p.key a = some e.id) = [e] := by
    have touching : (events.filter fun a => p.reads a.kind && p.key a = some e.id) =
        events.filter fun a => a.id = e.id := by
      apply List.filter_congr
      intro a ha
      rw [reads a ha, draws.key a]
      simp
    rw [touching, Event.filter_id_eq distinct he]
  rw [lawful.get?_fold, alone]
  exact makes e

/-- The draws of a room are those that its events made, in order of time. -/
theorem listed_eq (draws : p.IsDraws kind make) (room : RoomId) {events : List Event}
    (distinct : (Loaded.ids events).Nodup) :
    p.listed room events = (Event.sortByTime (p.eventsIn (.room room) events)).filterMap make := by
  have sorted : (Event.sortByTime (p.eventsIn (.room room) events)).Perm _ :=
    Event.sortByTime_perm _
  have ownIds : (Loaded.ids (Event.sortByTime (p.eventsIn (.room room) events))).Nodup :=
    (sorted.map Event.id).nodup_iff.2 (ids_eventsIn_nodup p _ distinct)
  have reads : ∀ e ∈ Event.sortByTime (p.eventsIn (.room room) events), p.reads e.kind := by
    intro e he
    have isKind := (draws.mem_eventsIn.1 (Event.mem_sortByTime.1 he)).2.1
    simp [Projection.reads, draws.kinds, isKind]
  have keys : (Event.sortByTime (p.eventsIn (.room room) events)).filterMap p.key =
      Loaded.ids (Event.sortByTime (p.eventsIn (.room room) events)) := by
    rw [List.filterMap_congr fun e _ => draws.key e]
    rw [List.filterMap_eq_map']
  simp only [listed, Loaded.inReplayOrder, Loaded.ofEvents, keys, eraseDups_of_nodup ownIds,
    Loaded.ids, List.filterMap_map]
  exact List.filterMap_congr fun e he => draws.get?_fold reads ownIds he

/-- A draw is listed once under its identifier. -/
theorem filter_listed (draws : p.IsDraws kind make) {id : ε → EventId}
    (identified : ∀ e x, make e = some x → id x = e.id) {events : List Event}
    (distinct : (Loaded.ids events).Nodup) {e : Event} (he : e ∈ events) (isKind : e.kind = kind)
    {x : ε} (makes : make e = some x) :
    ((p.listed e.room events).filter fun y => id y = id x) = [x] := by
  have sorted : (Event.sortByTime (p.eventsIn (.room e.room) events)).Perm _ :=
    Event.sortByTime_perm _
  have alone := Event.filter_id_eq
    ((sorted.map Event.id).nodup_iff.2 (ids_eventsIn_nodup p _ distinct))
    (Event.mem_sortByTime.2 (draws.mem_eventsIn.2 ⟨he, isKind, rfl⟩))
  rw [draws.listed_eq _ distinct, identified e x makes]
  have own : ∀ l : List Event, ((l.filterMap make).filter fun y => id y = e.id) =
      (l.filter fun a => a.id = e.id).filterMap make := by
    intro l
    rw [List.filter_filterMap, List.filterMap_filter]
    refine List.filterMap_congr fun a _ => ?_
    cases made : make a with
    | none => simp
    | some y => simp [Option.filter, identified a y made]
  rw [own, alone, List.filterMap_cons_some makes, List.filterMap_nil]

/-- Events that make the same draws are the same events. -/
theorem eq_of_filterMap_eq (draws : p.IsDraws kind make) {events : List Event}
    (distinct : (Loaded.ids events).Nodup) :
    ∀ {xs ys : List Event}, (∀ e ∈ xs, e ∈ events ∧ (make e).isSome) →
      (∀ e ∈ ys, e ∈ events ∧ (make e).isSome) → xs.filterMap make = ys.filterMap make → xs = ys
  | [], [], _, _, _ => rfl
  | [], y :: ys, _, hys, same => by
    obtain ⟨b, hb⟩ := Option.isSome_iff_exists.1 (hys y List.mem_cons_self).2
    simp [hb] at same
  | x :: xs, [], hxs, _, same => by
    obtain ⟨a, ha⟩ := Option.isSome_iff_exists.1 (hxs x List.mem_cons_self).2
    simp [ha] at same
  | x :: xs, y :: ys, hxs, hys, same => by
    obtain ⟨a, ha⟩ := Option.isSome_iff_exists.1 (hxs x List.mem_cons_self).2
    obtain ⟨b, hb⟩ := Option.isSome_iff_exists.1 (hys y List.mem_cons_self).2
    rw [List.filterMap_cons_some ha, List.filterMap_cons_some hb, List.cons.injEq] at same
    obtain ⟨rfl, rest⟩ := same
    obtain rfl : x = y := List.inj_on_of_nodup_map distinct (hxs x List.mem_cons_self).1
      (hys y List.mem_cons_self).1 (draws.make_inj x y a ha hb)
    exact congrArg _ (draws.eq_of_filterMap_eq distinct
      (fun e he => hxs e (List.mem_cons_of_mem x he))
      (fun e he => hys e (List.mem_cons_of_mem x he)) rest)

/-- Logs that hold the same events list the same draws of a room iff those of one instant stand in
the same order. -/
theorem listed_eq_iff (draws : p.IsDraws kind make) (room : RoomId) {xs ys : List Event}
    (distinct : (Loaded.ids ys).Nodup) (same : xs.Perm ys) :
    p.listed room xs = p.listed room ys ↔
      ∀ t, Event.atTime t (placed p room xs) = Event.atTime t (placed p room ys) := by
  have distinct' : (Loaded.ids xs).Nodup := (same.map Event.id).nodup_iff.2 distinct
  have makes : ∀ {events : List Event}, ∀ e ∈ p.eventsIn (.room room) events,
      (make e).isSome = e.place.isSome := fun e he => by
    rw [draws.isSome_make, (draws.mem_eventsIn.1 he).2.1]
    simp
  have listedPlaced : ∀ {events : List Event}, (Loaded.ids events).Nodup →
      p.listed room events = (Event.sortByTime (placed p room events)).filterMap make := by
    intro events distinct
    rw [draws.listed_eq room distinct, placed, ← Event.filter_sortByTime, List.filterMap_filter]
    apply List.filterMap_congr
    intro e he
    have := makes e (Event.mem_sortByTime.1 he)
    cases found : make e with
    | none => simp
    | some a => simp_all
  rw [listedPlaced distinct, listedPlaced distinct', ← Event.sortByTime_eq_iff]
  constructor
  -- an entry knows its event, so what is listed tells in which order the events stand
  · refine draws.eq_of_filterMap_eq distinct (fun e he => ?_) (fun e he => ?_)
    all_goals
      obtain ⟨he, isPlaced⟩ := List.mem_filter.1 (Event.mem_sortByTime.1 he)
      rw [makes e he]
    · exact ⟨same.subset (draws.mem_eventsIn.1 he).1, isPlaced⟩
    · exact ⟨(draws.mem_eventsIn.1 he).1, isPlaced⟩
  · intro sorted
    rw [sorted]

/-! ### The draws of a room -/

/-- A cache of draws reads nothing of a room but its draws. -/
theorem eventsIn_drawsOf (draws : p.IsDraws kind make)
    (isDraw : kind = .rollCreated ∨ kind = .boostCreated) (room : RoomId) (events : List Event) :
    p.eventsIn (.room room) (Event.drawsOf room events) = p.eventsIn (.room room) events := by
  rw [draws.cached.eventsIn_eq (draws.isScope room), draws.cached.eventsIn_eq (draws.isScope room),
    Event.drawsOf, List.filter_filter]
  apply List.filter_congr
  intro e _
  cases isIn : p.isIn (.room room) e with
  | false => rfl
  | true =>
    obtain ⟨isKind, inRoom⟩ := draws.isIn_iff.1 isIn
    simp [Event.isDraw, isKind, inRoom, isDraw]

theorem eventsIn_congr (draws : p.IsDraws kind make)
    (isDraw : kind = .rollCreated ∨ kind = .boostCreated) {room : RoomId} {xs ys : List Event}
    (same : Event.drawsOf room xs = Event.drawsOf room ys) :
    p.eventsIn (.room room) xs = p.eventsIn (.room room) ys := by
  rw [← draws.eventsIn_drawsOf isDraw, same, draws.eventsIn_drawsOf isDraw]

theorem listed_drawsOf (draws : p.IsDraws kind make)
    (isDraw : kind = .rollCreated ∨ kind = .boostCreated) (room : RoomId) (events : List Event) :
    p.listed room (Event.drawsOf room events) = p.listed room events := by
  rw [listed, listed, draws.eventsIn_drawsOf isDraw]

/-- An event of another kind or room adds nothing to the draws of a room. -/
theorem listed_concat_other (draws : p.IsDraws kind make) {room : RoomId} {events : List Event}
    {e : Event} (other : ¬ (e.kind = kind ∧ e.room = room)) :
    p.listed room (events ++ [e]) = p.listed room events := by
  rw [listed, listed, eventsIn_append, draws.eventsIn_singleton, if_neg other, List.append_nil]

/-- Draws that are added in order of time are listed in the order in which they were added. -/
theorem listed_of_inOrder (draws : p.IsDraws kind make) (room : RoomId) {events : List Event}
    (distinct : (Loaded.ids events).Nodup) (inOrder : Event.InOrder events) :
    p.listed room events = (p.eventsIn (.room room) events).filterMap make := by
  have inOrderIn : Event.InOrder (p.eventsIn (.room room) events) :=
    inOrder.sublist List.filter_sublist
  rw [draws.listed_eq room distinct, Event.sortByTime_of_inOrder inOrderIn]

/-- One more draw in order of time is listed last. -/
theorem listed_concat_own (draws : p.IsDraws kind make) {room : RoomId} {events : List Event}
    {e : Event} {x : ε} (distinct : (Loaded.ids (events ++ [e])).Nodup)
    (inOrder : Event.InOrder (events ++ [e])) (isKind : e.kind = kind) (inRoom : e.room = room)
    (makes : make e = some x) : p.listed room (events ++ [e]) = p.listed room events ++ [x] := by
  rw [draws.listed_of_inOrder room distinct inOrder, eventsIn_append, draws.eventsIn_singleton,
    if_pos ⟨isKind, inRoom⟩, List.filterMap_append, List.filterMap_cons_some makes,
    draws.listed_of_inOrder room (distinct.sublist ((List.sublist_append_left _ _).map _))
      (inOrder.sublist (List.sublist_append_left _ _))]
  rfl

end IsDraws

end Projection

end NoonDraw
