import NoonDraw.Proofs.AcceptedDraws

/-!
# The course of a draw

A roll or a boost appends its event under the lock of its room, and tells others once it has let go of
it.  Whatever others do between its instants, one that is refused has neither written nor told
anything, and one that is accepted has appended the event of its draw at one instant and told its view
at a later one (`Engine.Drawing.Course`).
-/

namespace NoonDraw

namespace Engine

/-- How draws of one kind are recorded and shown. -/
structure Drawing (β ρ : Type) where
  /-- What events record them. -/
  kind : EventKind
  /-- The draw that an event records. -/
  make : Event → Option ρ
  /-- The draw that a view shows. -/
  record : β → ρ
  /-- The event of a draw. -/
  id : ρ → EventId
  /-- The place of a draw. -/
  place : ρ → PlaceId
  /-- What others are told. -/
  notification : β → Notification
  /-- The draws of a room. -/
  list : RoomId → Op (List β)

/-- Rolls. -/
def rolling : Drawing RollView Roll :=
  ⟨.rollCreated, (Projection.rollTransition · none), RollView.roll, Roll.id, Roll.place, .rollCreated,
    listRolls⟩

/-- Boosts. -/
def boosting : Drawing BoostView Boost :=
  ⟨.boostCreated, (Projection.boostTransition · none), BoostView.boost, Boost.id, Boost.place,
    .boostCreated, listBoosts⟩

variable {α β ρ : Type}

/-- The event of the draw that a view shows. -/
def Drawing.event (d : Drawing β ρ) (user : UserId) (room : RoomId) (now : Instant) (view : β) :
    Event :=
  .ofDraw d.kind user room now (d.id (d.record view)) (d.place (d.record view))

/-! ### Events that are appended -/

/-- Instants of which one appends an event, while all others neither write nor tell anything. -/
def Appends (course : List (Moment Engine)) (event : Event) : Prop :=
  ∃ early m late, course = early ++ m :: late ∧ (∀ m ∈ early ++ late, Quiet m) ∧
    m.after.log.events = m.before.log.events ++ [event] ∧ m.after.notifier = m.before.notifier

theorem Appends.around {course early late : List (Moment Engine)} {event : Event}
    (appends : Appends course event) (quiet : ∀ m ∈ early ++ late, Quiet m) :
    Appends (early ++ course ++ late) event := by
  obtain ⟨first, m, rest, rfl, others, writes⟩ := appends
  refine ⟨early ++ first, m, rest ++ late, by simp, ?_, writes⟩
  simp only [List.mem_append] at quiet others ⊢
  rintro m ((inEarly | inFirst) | (inRest | inLate))
  · exact quiet m (.inl inEarly)
  · exact others m (.inl inFirst)
  · exact others m (.inr inRest)
  · exact quiet m (.inr inLate)

theorem Appends.after {course early : List (Moment Engine)} {event : Event}
    (appends : Appends course event) (quiet : ∀ m ∈ early, Quiet m) :
    Appends (early ++ course) event := by
  have quiet' : ∀ m ∈ early ++ [], Quiet m := by rwa [List.append_nil]
  simpa using appends.around quiet'

/-- A call that appends one event if it is accepted, and nothing if it is refused, whatever others do
between its instants; it tells nothing. -/
def Op.AppendsOne (op : Op α) (event : α → Event) : Prop :=
  ∀ course r, (ExceptT.run op).Takes course r →
    (∃ f, r = .error f) ∧ (∀ m ∈ course, Quiet m) ∨ ∃ a, r = .ok a ∧ Appends course (event a)

namespace Op.AppendsOne

variable {event : α → Event} {refused : Failure → Prop}

theorem throw (f : Failure) : AppendsOne (MonadExcept.throw f : Op α) event := by
  intro course r takes
  obtain ⟨rfl, rfl⟩ := Process.takes_pure.1 takes
  exact .inl ⟨⟨f, rfl⟩, by simp⟩

/-- A call that appends one event after another that only reads. -/
theorem after {op : Op β} {g : β → Op α} (reads : op.Reads refused)
    (rest : ∀ b, (g b).AppendsOne event) : (op >>= g).AppendsOne event := by
  intro course r takes
  rcases takes_bind takes with ⟨f, refuses, rfl⟩ | ⟨b, early, late, rfl, succeeds, goesOn⟩
  · exact .inl ⟨⟨f, rfl⟩, (reads course _ refuses).1⟩
  · have quiet := (reads early _ succeeds).1
    rcases rest b late r goesOn with ⟨failed, quiet'⟩ | ⟨a, rfl, appends⟩
    · exact .inl ⟨failed, List.forall_mem_append.2 ⟨quiet, quiet'⟩⟩
    · exact .inr ⟨a, rfl, appends.after quiet⟩

/-- A call that goes on unless it is refused. -/
theorem refusing {c : Prop} [Decidable c] {f : Failure} {op : Op α} (appends : op.AppendsOne event) :
    (if c then (MonadExcept.throw f >>= fun _ : PUnit => op) else op).AppendsOne event := by
  split
  · intro course r takes
    rcases takes_bind takes with ⟨f', refuses, rfl⟩ | ⟨_, _, _, _, succeeds, _⟩
    · obtain ⟨rfl, -⟩ := Process.takes_pure.1 refuses
      exact .inl ⟨⟨f', rfl⟩, by simp⟩
    · cases (Process.takes_pure.1 succeeds).2
  · exact appends

/-- A new event is appended and answered. -/
theorem write {kind : EventKind} {actor : UserId} {room : RoomId} {time : Instant}
    {place : Option PlaceId} {payload : String} {answer : Event → α}
    (answers : ∀ id, event (answer { id, actor, room, kind, time, place, payload }) =
      { id, actor, room, kind, time, place, payload }) :
    AppendsOne (newEvent kind actor room time place payload >>= fun event =>
      store event >>= fun _ => pure (answer event)) event := by
  change (drawId >>= fun i => store { id := ⟨i⟩, actor, room, kind, time, place, payload } >>= fun _ =>
    pure (answer { id := ⟨i⟩, actor, room, kind, time, place, payload })).AppendsOne event
  refine after drawId_reads fun i course r takes => ?_
  rcases takes_bind takes with ⟨f, refuses, rfl⟩ | ⟨_, own, last, rfl, stores, ends⟩
  · rcases takes_store refuses with ⟨same, -⟩ | ⟨-, quiet⟩
    · cases same
    · exact .inl ⟨⟨f, rfl⟩, quiet⟩
  rcases takes_store stores with ⟨-, m, shown, rfl, adds, silent, aside⟩ | ⟨⟨_, same⟩, -⟩
  · obtain ⟨rfl, rfl⟩ := takes_pure ends
    refine .inr ⟨_, rfl, [], m, shown, by simp, fun m hm => (aside m hm).quiet, ?_, silent⟩
    rw [answers]
    exact adds
  · cases same

end Op.AppendsOne

theorem takes_withRoom {room : RoomId} {body : Op α} {course : List (Moment Engine)}
    {r : Except Failure α} (takes : (ExceptT.run (withRoom room body)).Takes course r) :
    ∃ early own late, course = early ++ own ++ late ∧ (∀ m ∈ early ++ late, Quiet m) ∧
      (ExceptT.run body).Takes own r := by
  obtain ⟨number, first, rest, rfl, registers, goesOn⟩ := Process.Takes.bind_inv takes
  obtain ⟨_, second, rest, rfl, waits, runs⟩ := Process.Takes.bind_inv goesOn
  obtain ⟨own, late, rfl, runs, cleans⟩ := runs.of_guarded
  have registering : ∀ m ∈ first, Quiet m := by
    obtain ⟨e, rfl, -⟩ := Process.takes_instant.1 registers
    exact List.forall_mem_singleton.2 ⟨rfl, rfl⟩
  have waiting : ∀ m ∈ second, Quiet m := by
    obtain ⟨e, -, rfl, -⟩ := Process.takes_suspend.1 waits
    exact List.forall_mem_singleton.2 ⟨rfl, rfl⟩
  have lettingGo : ∀ m ∈ late, Quiet m := by
    intro m hm
    obtain ⟨act, isAct, ends⟩ := cleans m hm
    simp only [List.mem_cons, List.not_mem_nil, or_false] at isAct
    rcases isAct with rfl | rfl <;> exact ⟨by rw [ends], by rw [ends]⟩
  exact ⟨first ++ second, own, late, by simp, List.forall_mem_append.2
    ⟨List.forall_mem_append.2 ⟨registering, waiting⟩, lettingGo⟩, runs⟩

/-- What is done under the lock of a room is all that a call does that takes it. -/
theorem withRoom_appendsOne {room : RoomId} {body : Op α} {event : α → Event}
    (appends : body.AppendsOne event) : (withRoom room body).AppendsOne event := by
  intro course r takes
  obtain ⟨early, own, late, rfl, quiet, runs⟩ := takes_withRoom takes
  refine (appends own r runs).imp ?_ ?_
  · rintro ⟨failed, quiet'⟩
    simp only [List.mem_append] at quiet ⊢
    grind
  · rintro ⟨a, rfl, written⟩
    exact ⟨a, rfl, written.around quiet⟩

/-! ### Draws -/

/-- What the course of a draw shows: nothing if it is refused, and if it is accepted that its event
was appended once, and its view told once and last.  The event records the draw that the view shows. -/
def Drawing.Course (d : Drawing β ρ) (user : UserId) (room : RoomId) (now : Instant)
    (course : List (Moment Engine)) : Except Failure β → Prop
  | .error _ => ∀ m ∈ course, Quiet m
  | .ok view => d.make (d.event user room now view) = some (d.record view) ∧
      ∃ early m, course = early ++ [m] ∧ Appends early (d.event user room now view) ∧
        m.after.log.events = m.before.log.events ∧
        m.after.notifier = m.before.notifier.notify (d.notification view)

/-- A draw is made under the lock of its room, and then it is told and answered. -/
theorem Drawing.course_of_told {d : Drawing β ρ} {user : UserId} {room : RoomId} {now : Instant}
    {view : Option User → α → β} {body : Op α}
    (makes : ∀ record a, d.make (d.event user room now (view record a)) =
      some (d.record (view record a)))
    (appends : ∀ record, body.AppendsOne fun a => d.event user room now (view record a))
    {course : List (Moment Engine)} {r : Except Failure β}
    (takes : (ExceptT.run (user? user >>= fun record => withRoom room body >>= fun a =>
      tell (d.notification (view record a)) >>= fun _ => pure (view record a))).Takes course r) :
    d.Course user room now course r := by
  rcases Op.takes_bind takes with ⟨f, refuses, rfl⟩ | ⟨record, first, rest, rfl, looksUp, goesOn⟩
  · exact (user?_reads user course _ refuses).1
  have looking := (user?_reads user first _ looksUp).1
  rcases Op.takes_bind goesOn with ⟨f, refuses, rfl⟩ | ⟨a, own, last, rfl, draws, telling⟩
  · rcases withRoom_appendsOne (appends record) rest _ refuses with ⟨-, quiet⟩ | ⟨_, same, -⟩
    · exact List.forall_mem_append.2 ⟨looking, quiet⟩
    · cases same
  rcases withRoom_appendsOne (appends record) own _ draws with ⟨⟨_, same⟩, -⟩ | ⟨_, same, written⟩
  · cases same
  obtain rfl := Except.ok.inj same
  rcases Op.takes_bind telling with ⟨f, refuses, -⟩ | ⟨_, tells, rest, rfl, told, ends⟩
  · obtain ⟨e, -, same⟩ := Op.takes_instant refuses
    cases same
  obtain ⟨e, rfl, -⟩ := Op.takes_instant told
  obtain ⟨rfl, rfl⟩ := Op.takes_pure ends
  exact ⟨makes record a, first ++ own, _, by rw [List.append_nil, List.append_assoc],
    written.after looking, rfl, rfl⟩

section Courses

variable (user : UserId) (room : RoomId) (now : Instant) {course : List (Moment Engine)}

theorem roll_course {r : Except Failure RollView}
    (takes : (ExceptT.run (roll user room now)).Takes course r) :
    rolling.Course user room now course r := by
  refine Drawing.course_of_told (d := rolling) (fun _ _ => ?_) (fun record => ?_) takes
  · rfl
  refine .after (livePlaces_reads room) fun places => .refusing ?_
  refine .after (history_reads room now) fun h => .refusing ?_
  refine .after (pick_reads _) fun picked => ?_
  cases picked with
  | none => exact .throw _
  | some picked => exact .write fun _ => rfl

theorem boost_course (place : PlaceId) {r : Except Failure BoostView}
    (takes : (ExceptT.run (boost user room place now)).Takes course r) :
    boosting.Course user room now course r := by
  refine Drawing.course_of_told (d := boosting) (fun _ _ => ?_) (fun record => ?_) takes
  · rfl
  refine .after (place?_reads room place) fun found => ?_
  split
  · exact .throw _
  · exact .after (history_reads room now) fun h => .refusing (.write fun _ => rfl)

end Courses

end Engine

end NoonDraw
