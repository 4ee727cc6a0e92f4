import NoonDraw.Proofs.Courses

/-!
# Writes that are cut short

Opening, joining and leaving rooms, and adding, removing and restoring places: each of these calls
appends one event, then reads the view that it answers back through the caches, and only then tells
others.  So the event is in the log before the call can be sure of its answer.

Whatever others do meanwhile, a call that is accepted has added one event and told others once, and a
call that is refused has told nobody.  A refused call may have added its event all the same: where one
of the reads after the append failed, and only there (`allOrNothing_iff`).
-/

namespace NoonDraw.Engine

/-! ### What a write does -/

/-- One of the reads made after an event was added has failed. -/
def ReadBackFails (course : List (Moment Engine)) : Prop := ∃ m ∈ sinceAdded course, FailedRead m

instance (course : List (Moment Engine)) : Decidable (ReadBackFails course) :=
  inferInstanceAs (Decidable (∃ m ∈ sinceAdded course, FailedRead m))

/-- A call that is accepted adds one event and tells others once; a call that is refused does
nothing. -/
def AllOrNothing {α : Type} (course : List (Moment Engine)) : Except Failure α → Prop
  | .ok _ => (added course).length = 1 ∧ told course = 1
  | .error _ => added course = [] ∧ told course = 0

/-- A call is refused after it has added an event, and nobody was told. -/
structure CutShort (course : List (Moment Engine)) (f : Failure) : Prop where
  /-- An event was added. -/
  added : (added course).length = 1
  /-- Nobody was told. -/
  told : told course = 0
  /-- What was written could not be read back, or was not found. -/
  refused : (∃ operation cause, f = .store operation cause) ∨ IsMissing f
  /-- It could not be read back exactly where a read failed. -/
  failed : ReadBackFails course ↔ ∃ operation cause, f = .store operation cause

theorem CutShort.not_allOrNothing {α : Type} {course : List (Moment Engine)} {f : Failure}
    (cut : CutShort course f) : ¬ AllOrNothing course (.error f : Except Failure α) := by
  intro all
  simpa [all.1] using cut.added

/-- What the course of a write shows: it only adds to the log, and it is all or nothing unless it is
cut short. -/
structure WriteCourse {α : Type} (course : List (Moment Engine)) (r : Except Failure α) : Prop where
  /-- The log only grows. -/
  grows : ∀ m ∈ course, m.before.log.events <+: m.after.log.events
  /-- It is all or nothing, or it is cut short. -/
  outcome : AllOrNothing course r ∧ ¬ ReadBackFails course ∨ ∃ f, r = .error f ∧ CutShort course f

section

variable {α β : Type} {first rest : List (Moment Engine)}

/-- A call that is refused before it has added anything has done nothing. -/
theorem WriteCourse.of_quiet {course : List (Moment Engine)} (quiet : ∀ m ∈ course, Quiet m)
    (f : Failure) : WriteCourse course (.error f : Except Failure α) where
  grows m hm := (quiet m hm).events ▸ List.prefix_rfl
  outcome := Or.inl ⟨⟨added_eq_nil fun m hm => (quiet m hm).events, told_eq_zero quiet⟩, by
    simp [ReadBackFails, sinceAdded_eq_nil quiet]⟩

/-- What a call only reads before it writes makes no difference. -/
theorem WriteCourse.after_quiet {r : Except Failure α} (quiet : ∀ m ∈ first, Quiet m)
    (writes : WriteCourse rest r) : WriteCourse (first ++ rest) r where
  grows := List.forall_mem_append.2 ⟨fun m hm => (quiet m hm).events ▸ List.prefix_rfl, writes.grows⟩
  outcome := by
    have same : added (first ++ rest) = added rest ∧ told (first ++ rest) = told rest ∧
        sinceAdded (first ++ rest) = sinceAdded rest :=
      ⟨by simp [added_eq_nil fun m hm => (quiet m hm).events], by simp [told_eq_zero quiet], sinceAdded_append quiet⟩
    rcases writes.outcome with ⟨all, succeeds⟩ | ⟨f, rfl, cut⟩
    · refine Or.inl ⟨?_, by rwa [ReadBackFails, same.2.2]⟩
      cases r <;> rwa [AllOrNothing, same.1, same.2.1]
    · exact Or.inr ⟨f, rfl, by rw [same.1]; exact cut.added, by rw [same.2.1]; exact cut.told,
        cut.refused, by rw [ReadBackFails, same.2.2]; exact cut.failed⟩

/-- What follows the instant that adds the event: the view is read back, and then others are told. -/
structure ReadBack (course : List (Moment Engine)) (r : Except Failure α) : Prop where
  /-- No more events are added. -/
  same : ∀ m ∈ course, m.after.log.events = m.before.log.events
  /-- Others are told, unless the view could not be shown. -/
  outcome : (∃ a, r = .ok a) ∧ told course = 1 ∧ (¬ ∃ m ∈ course, FailedRead m) ∨
    ∃ f, r = .error f ∧ told course = 0 ∧
      ((∃ operation cause, f = .store operation cause) ∨ IsMissing f) ∧
      ((∃ m ∈ course, FailedRead m) ↔ ∃ operation cause, f = .store operation cause)

/-- What the caches are shown has to do with nothing else. -/
theorem ReadBack.after_aside {r : Except Failure α} (aside : ∀ m ∈ first, Aside m.before m.after)
    (readBack : ReadBack rest r) : ReadBack (first ++ rest) r where
  same := List.forall_mem_append.2 ⟨fun m hm => (aside m hm).quiet.events, readBack.same⟩
  outcome := by
    have toldLate : told (first ++ rest) = told rest := by
      rw [told_append, told_eq_zero fun m hm => (aside m hm).quiet, Nat.zero_add]
    have failedLate : (∃ m ∈ first ++ rest, FailedRead m) ↔ ∃ m ∈ rest, FailedRead m := by
      simp [or_and_right, exists_or, not_exists_failedRead aside]
    rw [toldLate, failedLate]
    exact readBack.outcome

/-- An event has been added, and the view is read back. -/
theorem WriteCourse.of_written {m : Moment Engine} {event : Event} {r : Except Failure α}
    (adds : m.after.log.events = m.before.log.events ++ [event])
    (silent : m.after.notifier = m.before.notifier) (readBack : ReadBack rest r) :
    WriteCourse (m :: rest) r where
  grows := List.forall_mem_cons.2 ⟨⟨[event], adds.symm⟩, fun m hm =>
    readBack.same m hm ▸ List.prefix_rfl⟩
  outcome := by
    have addsOne : added [m] = [event] := by simp [added, adds]
    have once : (added (m :: rest)).length = 1 := by
      rw [added_cons, addsOne, added_eq_nil readBack.same, List.append_nil, List.length_singleton]
    have since : sinceAdded (m :: rest) = rest := sinceAdded_cons (by simp [addsOne])
    have toldLate : told (m :: rest) = told rest := by simp [told, silent]
    rcases readBack.outcome with ⟨⟨a, rfl⟩, tells, succeeds⟩ | ⟨f, rfl, silent, refused, failed⟩
    · exact Or.inl ⟨⟨once, toldLate.trans tells⟩, by rwa [ReadBackFails, since]⟩
    · exact Or.inr ⟨f, rfl, once, toldLate.trans silent, refused, by rwa [ReadBackFails, since]⟩

end

namespace Op

variable {α β : Type} {refused : Failure → Prop}

/-- A call that writes, whatever others do between its instants. -/
def Writes (op : Op α) : Prop :=
  ∀ course r, (ExceptT.run op).Takes course r → WriteCourse course r

theorem Writes.map {op : Op α} (writes : op.Writes) (f : α → β) :
    (op >>= fun a => pure (f a)).Writes := by
  intro course r takes
  rcases takes_bind takes with ⟨f', refuses, rfl⟩ | ⟨a, first, rest, rfl, succeeds, last⟩
  · obtain ⟨grows, outcome⟩ := writes course _ refuses
    refine ⟨grows, outcome.imp id ?_⟩
    rintro ⟨_, same, cut⟩
    exact ⟨f', rfl, Except.error.inj same ▸ cut⟩
  · obtain ⟨rfl, rfl⟩ := takes_pure last
    rw [List.append_nil]
    obtain ⟨grows, outcome⟩ := writes first _ succeeds
    refine ⟨grows, outcome.imp id ?_⟩
    rintro ⟨_, same, -⟩
    cases same

theorem Reads.bind_writes {op : Op α} {g : α → Op β} (reads : op.Reads refused)
    (writes : ∀ a, (g a).Writes) : (op >>= g).Writes := by
  intro course r takes
  rcases takes_bind takes with ⟨f, refuses, rfl⟩ | ⟨a, first, rest, rfl, succeeds, writing⟩
  · exact .of_quiet (reads course _ refuses).1 f
  · exact (writes a rest r writing).after_quiet (reads first _ succeeds).1

end Op

/-- A write either adds its event at its first instant, which nothing follows but what the caches are
shown, or it adds nothing. -/
theorem takes_store {event : Event} {course : List (Moment Engine)} {r : Except Failure Unit}
    (takes : (ExceptT.run (store event)).Takes course r) :
    (r = .ok () ∧ ∃ m shown, course = m :: shown ∧
      m.after.log.events = m.before.log.events ++ [event] ∧ m.after.notifier = m.before.notifier ∧
      ∀ m ∈ shown, Aside m.before m.after) ∨
    (∃ f, r = .error f) ∧ ∀ m ∈ course, Quiet m := by
  rcases Op.takes_bind takes with ⟨f, refuses, rfl⟩ | ⟨_, first, rest, rfl, succeeds, showing⟩
  · obtain ⟨answer, appends, same⟩ := Op.takes_fromStore refuses
    obtain ⟨e, -, rfl, rfl⟩ := Process.takes_suspend.1 appends
    cases met : e.log.outages.append e.log.accesses with
    | none => simp [EventLog.append, met, Except.mapError] at same
    | some cause => exact Or.inr ⟨⟨f, rfl⟩, by simp [EventLog.append, met, quiet_log]⟩
  · obtain ⟨answer, appends, same⟩ := Op.takes_fromStore succeeds
    obtain ⟨e, -, rfl, rfl⟩ := Process.takes_suspend.1 appends
    obtain ⟨_, shows, rfl⟩ := Op.takes_lift showing
    cases met : e.log.outages.append e.log.accesses with
    | some cause => simp [EventLog.append, met, Except.mapError] at same
    | none =>
      refine Or.inl ⟨rfl, _, rest, rfl, by simp [EventLog.append, met], rfl, fun m hm => ?_⟩
      obtain ⟨act, isObserver, same⟩ := shows.of_steps m hm
      rw [same]
      simp only [observers, List.mem_cons, List.not_mem_nil, or_false] at isObserver
      rcases isObserver with rfl | rfl | rfl | rfl | rfl <;> exact ⟨rfl, rfl, rfl⟩

/-- Others are told by one instant, which has to do with nothing else. -/
theorem takes_tell {notification : Notification} {course : List (Moment Engine)}
    {r : Except Failure Unit} (takes : (ExceptT.run (tell notification)).Takes course r) :
    r = .ok () ∧ told course = 1 ∧ (∀ m ∈ course, m.after.log.events = m.before.log.events) ∧
      ¬ ∃ m ∈ course, FailedRead m := by
  obtain ⟨e, rfl, rfl⟩ := Op.takes_instant takes
  simp [told, FailedRead]

section

variable {β : Type} {view : Op β}

/-- A view is read back, and others are told of it. -/
theorem takes_readBack (notification : β → Notification) (reads : view.Reads IsMissing)
    {course : List (Moment Engine)} {r : Except Failure β}
    (takes : (ExceptT.run (view >>= fun v => tell (notification v) >>= fun _ => pure v)).Takes
      course r) : ReadBack course r := by
  rcases Op.takes_bind takes with ⟨f, refuses, rfl⟩ | ⟨v, first, last, rfl, succeeds, telling⟩
  · obtain ⟨quiet, breaks⟩ := reads course _ refuses
    exact ⟨fun m hm => (quiet m hm).events, Or.inr ⟨f, rfl, told_eq_zero quiet,
      by simpa [IsStoreFailure] using breaks.refusal f rfl,
      by simpa [IsStoreFailure] using breaks.failed⟩⟩
  · obtain ⟨quiet, breaks⟩ := reads first _ succeeds
    have succeeded : ¬ ∃ m ∈ first, FailedRead m := by simpa [IsStoreFailure] using breaks.failed
    rcases Op.takes_bind telling with ⟨f, refuses, -⟩ | ⟨_, tells, rest, rfl, tell, last⟩
    · cases (takes_tell refuses).1
    obtain ⟨rfl, rfl⟩ := Op.takes_pure last
    obtain ⟨-, once, same, tellSucceeds⟩ := takes_tell tell
    rw [List.append_nil]
    refine ⟨List.forall_mem_append.2 ⟨fun m hm => (quiet m hm).events, same⟩,
      Or.inl ⟨⟨v, rfl⟩, ?_, ?_⟩⟩
    · rw [told_append, told_eq_zero quiet, once]
    · simpa [or_and_right, exists_or, succeeded] using tellSucceeds

/-- An event is written, its view is read back, and others are told. -/
theorem written_writes {kind : EventKind} {actor : UserId} {room : RoomId} {time : Instant}
    {place : Option PlaceId} {payload : String} (notification : β → Notification)
    (reads : view.Reads IsMissing) :
    (newEvent kind actor room time place payload >>= fun event => store event >>= fun _ =>
      view >>= fun v => tell (notification v) >>= fun _ => pure v).Writes := by
  have drawn : (newEvent kind actor room time place payload).Reads IsMissing :=
    drawId_reads.bind fun _ => .pure _
  refine drawn.bind_writes fun event course r takes => ?_
  rcases Op.takes_bind takes with ⟨f, refuses, rfl⟩ | ⟨_, first, late, rfl, succeeds, goesOn⟩
  · rcases takes_store refuses with ⟨same, -⟩ | ⟨-, quiet⟩
    · cases same
    · exact .of_quiet quiet f
  · rcases takes_store succeeds with ⟨-, m, shown, rfl, adds, silent, aside⟩ | ⟨⟨_, same⟩, -⟩
    · exact .of_written adds silent ((takes_readBack notification reads goesOn).after_aside aside)
    · cases same

end

/-! ### The writes of rooms and places -/

theorem checkName_reads (subject : Subject) (name : String) :
    (checkName subject name).Reads fun _ => True := by
  simp only [checkName]
  split
  · exact .throw (by simp [Failure.blankName]) trivial
  · exact .pure _

theorem createRoom_writes (user : UserId) (name : String) (now : Instant) :
    (createRoom user name now).Writes := by
  refine (checkName_reads .room name).bind_writes fun name => ?_
  exact drawId_reads.bind_writes fun id => written_writes .roomCreated (room_reads _)

theorem changeMembership_writes (kind : EventKind) (user : UserId) (id : RoomId) (now : Instant) :
    (changeMembership kind user id now).Writes :=
  (existingRoom_reads id).bind_writes fun _ => written_writes .roomUpdated (room_reads id)

theorem createPlace_writes (user : UserId) (room : RoomId) (name : String) (now : Instant) :
    (createPlace user room name now).Writes := by
  refine (checkName_reads .place name).bind_writes fun name => ?_
  refine (existingRoom_reads room).bind_writes fun _ => ?_
  exact drawId_reads.bind_writes fun id => written_writes .placeCreated (placeView_reads room _ now)

theorem togglePlace_writes (kind : EventKind) (user : UserId) (room : RoomId) (id : PlaceId)
    (now : Instant) : (togglePlace kind user room id now).Writes := by
  refine (place?_reads room id).bind_writes fun found => ?_
  dsimp only
  split
  · have missing : (throw (.notFound .place id.id.toText) : Op Unit).Reads IsMissing :=
      .throw (by simp) ⟨_, _, rfl⟩
    exact missing.bind_writes fun _ => written_writes .placeUpdated (placeView_reads room id now)
  · exact written_writes .placeUpdated (placeView_reads room id now)

/-- Whether a command opens, joins or leaves a room, or adds, removes or restores a place. -/
def Command.isManaging : Command → Bool
  | createRoom .. | joinRoom .. | leaveRoom .. | createPlace .. | deletePlace .. | restorePlace .. =>
    true
  | _ => false

theorem Command.writes {c : Command} (managing : c.isManaging) : c.perform.Writes := by
  cases c with
  | createRoom user name now => exact (createRoom_writes user name now).map Reply.room
  | joinRoom user id now => exact (changeMembership_writes _ user id now).map Reply.room
  | leaveRoom user id now => exact (changeMembership_writes _ user id now).map Reply.room
  | createPlace user id name now => exact (createPlace_writes user id name now).map Reply.place
  | deletePlace user id place now => exact (togglePlace_writes _ user id place now).map Reply.place
  | restorePlace user id place now => exact (togglePlace_writes _ user id place now).map Reply.place
  | room | listRooms | listPlaces | boost | roll | listRolls | listBoosts => cases managing

/-! ### Writes on an engine of one's own -/

section

variable {w : World} {α β : Type}

namespace Op

/-- A call that has the engine to itself leaves the log as it was if it is refused, unless a store
fails. -/
def Traceless (op : Op α) (w : World) : Prop :=
  op.Ensures w 2 fun r events => ∀ f, r = .error f → events = w.events

theorem Accepted.traceless {op : Op α} {n : Nat} (accepted : op.Accepted w n) (le : n ≤ 2) :
    op.Traceless w := by
  refine (accepted.mono ?_).le le
  rintro r events ⟨a, rfl⟩ f refused
  cases refused

theorem Settles.traceless {op : Op α} {answer : Except Failure α} (settles : op.Settles w answer) :
    op.Traceless w := by
  refine (settles.mono ?_).le (Nat.zero_le 2)
  rintro r events ⟨-, same⟩ f refused
  exact same

theorem Settled.bind_traceless {op : Op α} {g : α → Op β} (first : op.Settled w)
    (rest : ∀ a, (g a).Traceless w) : (op >>= g).Traceless w := by
  obtain ⟨f | a, settles⟩ := first
  · exact settles.bind_error.traceless
  · exact settles.bind (rest a)

theorem Traceless.map {op : Op α} (traceless : op.Traceless w) (f : α → β) :
    (op >>= fun a => pure (f a)).Traceless w :=
  Ensures.bind (m := 0) traceless (fun _ _ same _ _ => same _ rfl) fun _ _ _ =>
    .pure fun _ refused => nomatch refused

end Op

/-- An event is written, and its view is there once it is. -/
theorem written_accepted {view : Op β} {kind : EventKind} {actor : UserId} {room : RoomId}
    {time : Instant} {place : Option PlaceId} {payload : String} (notification : β → Notification)
    (shown : ∀ id, view.Accepted
      { w with events := w.events ++ [{ id, actor, room, kind, time, place, payload }] } 0) :
    (newEvent kind actor room time place payload >>= fun event => store event >>= fun _ =>
      view >>= fun v => tell (notification v) >>= fun _ => pure v).Accepted w 1 :=
  write_ensures fun id => Op.Accepted.bind (n := 0) (m := 0) (shown id) fun v _ =>
    told_accepted (notification v) v

theorem createRoom_traceless (user : UserId) (name : String) (now : Instant) :
    (createRoom user name now).Traceless w := by
  refine (checkName_settled .room name).bind_traceless fun name =>
    Op.Accepted.traceless (n := 1 + 1) ?_ le_rfl
  exact drawId_accepted.bind fun id events =>
    written_accepted .roomCreated fun _ => room_accepted List.mem_concat_self rfl rfl

theorem changeMembership_traceless (kind : EventKind) (user : UserId) (id : RoomId) (now : Instant) :
    (changeMembership kind user id now).Traceless w := by
  cases found : (w.state Projection.rooms (.room id)).get? id with
  | none => exact (existingRoom_missing found).bind_error.traceless
  | some room =>
    obtain ⟨e, logged, inRoom, created⟩ :=
      isSome_room_iff.1 (Option.isSome_iff_exists.2 ⟨room, found⟩)
    refine (existingRoom_settles found).bind (Op.Accepted.traceless (n := 1) ?_ (by decide))
    exact written_accepted .roomUpdated fun _ =>
      room_accepted (List.mem_append_left _ logged) inRoom created

theorem createPlace_traceless (user : UserId) (room : RoomId) (name : String) (now : Instant) :
    (createPlace user room name now).Traceless w := by
  refine (checkName_settled .place name).bind_traceless fun name => ?_
  refine (existingRoom_settled room).bind_traceless fun _ =>
    Op.Accepted.traceless (n := 1 + 1) ?_ le_rfl
  exact drawId_accepted.bind fun id events =>
    written_accepted .placeCreated fun _ => placeView_accepted now List.mem_concat_self rfl rfl rfl

theorem togglePlace_traceless (kind : EventKind) (user : UserId) (room : RoomId) (id : PlaceId)
    (now : Instant) : (togglePlace kind user room id now).Traceless w := by
  cases found : (w.state Projection.places (.room room)).get? id with
  | none =>
    refine (place?_settles room id).bind ?_
    rw [found]
    exact (Op.Settles.throw (.notFound .place id.id.toText)).bind_error.traceless
  | some place =>
    obtain ⟨e, logged, inRoom, isPlace, created⟩ :=
      isSome_place_iff.1 (Option.isSome_iff_exists.2 ⟨place, found⟩)
    refine (place?_settles room id).bind ?_
    rw [found]
    refine Op.Accepted.traceless (n := 1) ?_ (by decide)
    exact written_accepted .placeUpdated fun _ =>
      placeView_accepted now (List.mem_append_left _ logged) inRoom isPlace created

theorem Command.traceless {c : Command} (managing : c.isManaging) : c.perform.Traceless w := by
  cases c with
  | createRoom user name now => exact (createRoom_traceless user name now).map Reply.room
  | joinRoom user id now => exact (changeMembership_traceless _ user id now).map Reply.room
  | leaveRoom user id now => exact (changeMembership_traceless _ user id now).map Reply.room
  | createPlace user id name now => exact (createPlace_traceless user id name now).map Reply.place
  | deletePlace user id place now => exact (togglePlace_traceless _ user id place now).map Reply.place
  | restorePlace user id place now => exact (togglePlace_traceless _ user id place now).map Reply.place
  | room | listRooms | listPlaces | boost | roll | listRolls | listBoosts => cases managing

end

/-- Whatever others do between its instants, a call that opens, joins or leaves a room, or adds,
removes or restores a place, is all or nothing, or else it is cut short: its event is added, but the
view cannot be read back, or is not there any more.

On an engine of its own, after any commands and whatever the stores meet, it is all or nothing exactly
if none of the reads fails that it makes after it has added its event. -/
theorem allOrNothing_iff (settings : Settings) (entropy : UInt64) (log : EventLog)
    (directory : Directory) (ids : IdSupply) (commands : List Command) (c : Command)
    (managing : c.isManaging) (ungated : log.gated = false)
    (distinct : (Loaded.ids log.events).Nodup)
    (fresh : ids.FreshFor log.events (2 * commands.length + 2)) :
    (∀ course r, (ExceptT.run c.perform).Takes course r →
      AllOrNothing course r ∧ ¬ ReadBackFails course ∨ ∃ f, r = .error f ∧ CutShort course f) ∧
    let e := runAll commands (start settings entropy log directory ids)
    let course := (ExceptT.run c.perform).instants e
    ∃ r e', c.perform.run e = (some r, e') ∧ e'.log.events = e.log.events ++ added course ∧
      (AllOrNothing course r ↔ ¬ ReadBackFails course) := by
  refine ⟨fun course r takes => (c.writes managing course r takes).outcome, ?_⟩
  intro e course
  obtain ⟨events, serves⟩ : ∃ events, e.Serves ⟨events, directory.users, settings.rules, AllFree⟩ 2 :=
    runAll_serves (w := ⟨log.events, directory.users, settings.rules, AllFree⟩) commands
      (start_serves settings entropy log directory ungated distinct (by rwa [Nat.add_comm]))
  obtain ⟨r, e', events', ran, serves', -, outcome⟩ := c.traceless managing 0 e serves
  obtain ⟨grows, course_outcome⟩ := c.writes managing course r (Process.takes_instants ran)
  have total : e'.log.events = e.log.events ++ added course := events_run ran grows
  refine ⟨r, e', ran, total, ?_⟩
  rcases course_outcome with ⟨all, succeeds⟩ | ⟨f, rfl, cut⟩
  · exact iff_of_true all succeeds
  refine iff_of_false cut.not_allOrNothing (not_not_intro (cut.failed.2 ?_))
  -- a view cannot be missing here, for then the log would be as it was
  rcases outcome with traceless | ⟨-, operation, cause, same⟩
  · have unchanged : e'.log.events = e.log.events := by
      rw [serves'.events, traceless f rfl, serves.events]
    have nothing : added course = [] := List.append_right_eq_self.1 (total.symm.trans unchanged)
    simpa [nothing] using cut.added
  · exact ⟨operation, cause, Except.error.inj same⟩

/-- A directory that cannot be reached at one access. -/
def absentAt (access : Nat) : Directory where
  outages n := if n = access then some (.unreachable "scripted outage") else none

/-- A room is opened; then a user joins it while the directory cannot be reached. -/
theorem allOrNothing_iff_absentDirectory :
    let e := runAll [.createRoom ⟨"anna"⟩ "lunch" default] (start {} 0 {} (absentAt 1) (numbered 0))
    let c : Command := .joinRoom ⟨"bert"⟩ ⟨.ofNat 1⟩ default
    ReadBackFails ((ExceptT.run c.perform).instants e) ∧
      ∃ r e', c.perform.run e = (some r, e') ∧
        e'.log.events.map Event.kind = [.roomCreated, .roomJoined] ∧
        ¬ AllOrNothing ((ExceptT.run c.perform).instants e) r := by
  intro e c
  have fails : ReadBackFails ((ExceptT.run c.perform).instants e) := by decide +kernel
  obtain ⟨-, r, e', ran, -, all⟩ := allOrNothing_iff {} 0 {} (absentAt 1) (numbered 0)
    [.createRoom ⟨"anna"⟩ "lunch" default] c rfl rfl .nil ⟨by decide, by simp⟩
  have kinds : (c.perform.run e).2.log.events.map Event.kind = [.roomCreated, .roomJoined] := by
    decide +kernel
  have events : e'.log.events = (c.perform.run e).2.log.events := congrArg (·.2.log.events) ran.symm
  exact ⟨fails, r, e', ran, events ▸ kinds, fun holds => all.1 holds fails⟩

/-- A room is opened while the directory cannot be reached: the call is refused, and the event that
opens the room is in the log. -/
theorem not_allOrNothing :
    ¬ ∀ (settings : Settings) (entropy : UInt64) (log : EventLog) (directory : Directory)
      (ids : IdSupply) (commands : List Command) (c : Command), c.isManaging → log.gated = false →
      (Loaded.ids log.events).Nodup → ids.FreshFor log.events (2 * commands.length + 2) →
      let e := runAll commands (start settings entropy log directory ids)
      ∃ r e', c.perform.run e = (some r, e') ∧
        AllOrNothing ((ExceptT.run c.perform).instants e) r := by
  intro always
  let e := runAll [] (start {} 0 {} (absentAt 0) (numbered 0))
  let c : Command := .createRoom ⟨"anna"⟩ "Office" default
  obtain ⟨r, e', ran, all⟩ : ∃ r e', c.perform.run e = (some r, e') ∧
      AllOrNothing ((ExceptT.run c.perform).instants e) r :=
    always {} 0 {} (absentAt 0) (numbered 0) [] c rfl rfl .nil ⟨by decide, by simp⟩
  have refused : (c.perform.run e).1.map Except.toBool = some false := by decide +kernel
  have addsOne : (added ((ExceptT.run c.perform).instants e)).length = 1 := by decide +kernel
  rw [ran] at refused
  cases r with
  | ok view => cases refused
  | error f =>
    rw [all.1] at addsOne
    cases addsOne

end NoonDraw.Engine
