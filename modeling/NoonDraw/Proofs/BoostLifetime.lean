import NoonDraw.Proofs.AcceptedDraws
import NoonDraw.Proofs.Quota

/-!
# The lifetime of a boost

A boost is active while it is later than every roll of its room.  Where the draws of a room are added
in order of time, no roll added before a boost is later than it, and none added after it is earlier.
So a boost is active until the next roll is added, and never again, unless a roll of the very instant
of the boost had been added before: then it has never been active (`boost_active_iff`,
`not_boost_active_sameInstant`).
-/

namespace NoonDraw

theorem Instant.max_lt {a b t : Instant} : max a b < t ↔ a < t ∧ b < t := by
  simp only [Instant.lt_def, Instant.le_def, Max.max]
  split <;> omega

namespace History

variable {W : Type} {rolls : List Roll} {boosts : List Boost} {rules : Rules W} {t : Instant}

/-- An instant is later than the latest of some iff it is later than all. -/
theorem isSince_max? {times : List Instant} : isSince times.max? t ↔ ∀ a ∈ times, a < t := by
  cases times with
  | nil => simp [isSince]
  | cons first rest =>
    have later : rest.foldl max first < t ↔ first < t ∧ ∀ a ∈ rest, a < t := by
      induction rest generalizing first with
      | nil => simp
      | cons a rest ih => rw [List.foldl_cons, ih, Instant.max_lt, List.forall_mem_cons, and_assoc]
    simpa [isSince, List.max?] using later

/-- A boost is active iff it is later than every roll. -/
theorem mem_activeBoosts {b : Boost} {place : PlaceId} :
    b ∈ (build rolls boosts t rules).activeBoosts place ↔
      b ∈ boosts ∧ b.place = place ∧ ∀ r ∈ rolls, r.time < b.time := by
  simp only [activeBoosts, build, Table.getD_get?_group, List.mem_filter, decide_eq_true_eq,
    isSince_max?, List.forall_mem_map]
  rw [and_assoc, and_comm (b := b.place = place)]

end History

namespace Event

/-- Whether an event is a roll of a room. -/
def isRollOf (room : RoomId) (e : Event) : Bool :=
  e.kind = .rollCreated && e.room = room && e.place.isSome

theorem isRollOf_isDraw {room : RoomId} {e : Event} (isRoll : e.isRollOf room) :
    (e.isDraw && e.room = room) = true := by
  simp only [isRollOf, Bool.and_eq_true, decide_eq_true_eq] at isRoll
  simp [isDraw, isRoll]

end Event

namespace Projection

variable {W : Type} {room : RoomId} {events : List Event}

/-- What holds for the times of all rolls listed holds for those of all roll events. -/
theorem forall_mem_rolls (distinct : (Loaded.ids events).Nodup) {P : Instant → Prop} :
    (∀ r ∈ rolls.listed room events, P r.time) ↔ ∀ a ∈ events, a.isRollOf room → P a.time := by
  constructor
  · intro all a ha isRoll
    simp only [Event.isRollOf, Bool.and_eq_true, decide_eq_true_eq] at isRoll
    obtain ⟨⟨isKind, inRoom⟩, placed⟩ := isRoll
    obtain ⟨r, made⟩ : ∃ r, rollTransition a none = some r :=
      Option.isSome_iff_exists.1 (by rw [rolls_isDraws.isSome_make a]; simp [isKind, placed])
    rw [← (rollTransition_none made).2]
    exact all r ((rolls_isDraws.mem_listed distinct).2 ⟨a, ha, isKind, inRoom, made⟩)
  · intro all r hr
    obtain ⟨a, ha, isKind, inRoom, made⟩ := (rolls_isDraws.mem_listed distinct).1 hr
    have placed : a.place.isSome := by
      have made' := rolls_isDraws.isSome_make a
      rw [made] at made'
      simpa [isKind] using made'.symm
    rw [(rollTransition_none made).2]
    exact all a ha (by simp [Event.isRollOf, isKind, inRoom, placed])

/-- Where the draws of a room are added in order of time, a boost is active iff no roll has been added
after it, and none of its instant before. -/
theorem mem_activeBoosts_iff {known added : List Event} {b : Event} {x : Boost}
    (distinct : (Loaded.ids (known ++ b :: added)).Nodup)
    (inOrder : Event.InOrder (Event.drawsOf room (known ++ b :: added)))
    (isBoost : b.kind = .boostCreated) (inRoom : b.room = room)
    (made : boostTransition b none = some x) (t : Instant) (rules : Rules W) :
    x ∈ (History.build (rolls.listed room (known ++ b :: added))
        (boosts.listed room (known ++ b :: added)) t rules).activeBoosts x.place ↔
      (∀ a ∈ added, ¬ a.isRollOf room) ∧ ∀ a ∈ known, a.isRollOf room → a.time ≠ b.time := by
  have listed : x ∈ boosts.listed room (known ++ b :: added) :=
    (boosts_isDraws.mem_listed distinct).2
      ⟨b, List.mem_append_right _ List.mem_cons_self, isBoost, inRoom, made⟩
  have notRoll : b.isRollOf room = false := by simp [Event.isRollOf, isBoost]
  -- by the order of time, the rolls before are not later, and those after are not earlier
  have own : Event.drawsOf room (known ++ b :: added) =
      Event.drawsOf room known ++ b :: Event.drawsOf room added := by
    simp [Event.drawsOf, Event.isDraw, isBoost, inRoom]
  rw [own, Event.inOrder_append] at inOrder
  obtain ⟨-, after, before⟩ := inOrder
  have notLater : ∀ a ∈ known, a.isRollOf room → a.time ≤ b.time := fun a ha isRoll =>
    before a (List.mem_filter.2 ⟨ha, Event.isRollOf_isDraw isRoll⟩) b List.mem_cons_self
  have notEarlier : ∀ a ∈ added, a.isRollOf room → b.time ≤ a.time := fun a ha isRoll =>
    (List.pairwise_cons.1 after).1 a (List.mem_filter.2 ⟨ha, Event.isRollOf_isDraw isRoll⟩)
  rw [History.mem_activeBoosts, (boostTransition_none made).2,
    forall_mem_rolls distinct (P := fun u => u < b.time)]
  simp only [listed, true_and, List.forall_mem_append, List.forall_mem_cons, notRoll,
    Bool.false_eq_true, false_imp_iff]
  constructor
  · rintro ⟨early, late⟩
    exact ⟨fun a ha isRoll => Instant.not_le.2 (late a ha isRoll) (notEarlier a ha isRoll),
      fun a ha isRoll same => Instant.not_le.2 (early a ha isRoll) (same ▸ Instant.le_refl _)⟩
  · rintro ⟨none, noTie⟩
    refine ⟨fun a ha isRoll => ?_, fun a ha isRoll => absurd isRoll (none a ha)⟩
    exact Instant.not_le.1 fun le => noTie a ha isRoll (Instant.le_antisymm (notLater a ha isRoll) le)

end Projection

namespace Engine

/-- A boost that has been accepted is active until the next roll of its room is added, and never
again, if the draws of the room are added in order of time; but it has never been active if a roll of
its very instant had been added before. -/
theorem boost_active_iff (settings : Settings) (entropy : UInt64) (log : EventLog)
    (directory : Directory) (ids : IdSupply) (earlier later : List Command) (user : UserId)
    (room : RoomId) (place : PlaceId) (now : Instant) (view : BoostView) (e' : Engine)
    (ungated : log.gated = false) (distinct : (Loaded.ids log.events).Nodup)
    (fresh : ids.FreshFor log.events (2 * later.length + 1 + 2 * earlier.length))
    (accepted : (boost user room place now).run
      (runAll earlier (start settings entropy log directory ids)) = (some (.ok view), e'))
    (inOrder : Event.InOrder (Event.drawsOf room (runAll later e').log.events)) :
    let e := runAll earlier (start settings entropy log directory ids)
    let e'' := runAll later e'
    ∃ added, e''.log.events = e'.log.events ++ added ∧ ∀ t,
      view.boost ∈ (e''.historyAt room t).activeBoosts place ↔
        (∀ a ∈ added, ¬ a.isRollOf room) ∧ ∀ a ∈ e.log.events, a.isRollOf room → a.time ≠ now := by
  intro e e''
  obtain ⟨w, serves⟩ := runAll_start_serves settings entropy directory ungated distinct fresh
  obtain ⟨events, serves', isView, -, rfl⟩ :=
    (boost_ensures user room now place).accepted _ serves accepted
  let b : Event := .ofDraw .boostCreated user room now view.boost.id place
  obtain ⟨added, serves''⟩ := runAll_grows (w := { w with events := w.events ++ [b] })
    later (by rwa [Nat.zero_add])
  have logged : e''.log.events = w.events ++ b :: added :=
    serves''.events.trans (List.append_assoc ..)
  refine ⟨added, by rw [serves''.events, serves'.events], fun t => ?_⟩
  have made : Projection.boostTransition b none = some view.boost := congrArg some isView.symm
  have unique : (Loaded.ids (w.events ++ b :: added)).Nodup := by
    rw [← logged, serves''.events]
    exact serves''.distinct
  have active := Projection.mem_activeBoosts_iff unique (logged ▸ inOrder) rfl rfl
    made t e''.rules
  have own : view.boost.place = place := congrArg Boost.place isView
  rw [own] at active
  rwa [historyAt, logged, serves.events]

/-- A place is boosted, and then a roll is added, at the same instant. -/
theorem boost_active_iff_spent :
    let e := runAll openedPlace (start {} 0 {} {} (numbered 0))
    let place : PlaceId := ⟨.ofNat 3⟩
    ∃ view e', (boost ⟨"anna"⟩ ⟨.ofNat 1⟩ place default).run e = (some (.ok view), e') ∧
      (∀ t, view.boost ∈ (e'.historyAt ⟨.ofNat 1⟩ t).activeBoosts place) ∧
      ∀ t, view.boost ∉ ((runAll [.roll ⟨"bert"⟩ ⟨.ofNat 1⟩ default] e').historyAt ⟨.ofNat 1⟩
        t).activeBoosts place := by
  intro e place
  let e' := ((boost ⟨"anna"⟩ ⟨.ofNat 1⟩ place default).run e).2
  let rolled := runAll [.roll ⟨"bert"⟩ ⟨.ofNat 1⟩ default] e'
  obtain ⟨view, accepted⟩ : ∃ view, (boost ⟨"anna"⟩ ⟨.ofNat 1⟩ place default).run e =
      (some (.ok view), e') := Op.exists_accepted (by decide +kernel)
  refine ⟨view, e', accepted, fun t => ?_, fun t => ?_⟩
  · obtain ⟨added, grown, active⟩ := boost_active_iff {} 0 {} {} (numbered 0) openedPlace [] ⟨"anna"⟩
      ⟨.ofNat 1⟩ place default view e' rfl .nil ⟨by decide, by simp⟩ accepted
      (by unfold Event.InOrder; decide +kernel)
    obtain rfl : added = [] := List.append_right_eq_self.1 grown.symm
    exact (active t).2 ⟨by simp, by decide +kernel⟩
  · obtain ⟨added, grown, active⟩ := boost_active_iff {} 0 {} {} (numbered 0) openedPlace
      [.roll ⟨"bert"⟩ ⟨.ofNat 1⟩ default] ⟨"anna"⟩ ⟨.ofNat 1⟩ place default view e' rfl .nil
      ⟨by decide, by simp⟩ accepted (by unfold Event.InOrder; decide +kernel)
    have addsRoll : (rolled.log.events.drop e'.log.events.length).any
        (Event.isRollOf ⟨.ofNat 1⟩) = true := by decide +kernel
    rw [grown, List.drop_left, List.any_eq_true] at addsRoll
    obtain ⟨a, ha, isRoll⟩ := addsRoll
    exact fun isActive => ((active t).1 isActive).1 a ha isRoll

/-- A room is opened, a place is added to it, and the room rolls. -/
def rolledPlace : List Command := openedPlace ++ [.roll ⟨"bert"⟩ ⟨.ofNat 1⟩ default]

/-- A boost that is accepted after a roll of the same instant is not active, although no roll has been
added after it. -/
theorem not_boost_active_sameInstant :
    ¬ ∀ (settings : Settings) (entropy : UInt64) (log : EventLog) (directory : Directory)
      (ids : IdSupply) (earlier later : List Command) (user : UserId) (room : RoomId)
      (place : PlaceId) (now : Instant) (view : BoostView) (e' : Engine), log.gated = false →
      (Loaded.ids log.events).Nodup →
      ids.FreshFor log.events (2 * later.length + 1 + 2 * earlier.length) →
      (boost user room place now).run (runAll earlier (start settings entropy log directory ids)) =
        (some (.ok view), e') →
      Event.InOrder (Event.drawsOf room (runAll later e').log.events) →
      let e'' := runAll later e'
      ∃ added, e''.log.events = e'.log.events ++ added ∧ ∀ t,
        view.boost ∈ (e''.historyAt room t).activeBoosts place ↔ ∀ a ∈ added, ¬ a.isRollOf room := by
  intro always
  let e := runAll rolledPlace (start {} 0 {} {} (numbered 0))
  let e' := ((boost ⟨"anna"⟩ ⟨.ofNat 1⟩ ⟨.ofNat 3⟩ default).run e).2
  obtain ⟨view, accepted⟩ : ∃ view, (boost ⟨"anna"⟩ ⟨.ofNat 1⟩ ⟨.ofNat 3⟩ default).run e =
      (some (.ok view), e') := Op.exists_accepted (by decide +kernel)
  have inOrder : Event.InOrder (Event.drawsOf ⟨.ofNat 1⟩ (runAll [] e').log.events) := by
    unfold Event.InOrder
    decide +kernel
  have fresh : (numbered 0).FreshFor [] (2 * ([] : List Command).length + 1 + 2 * rolledPlace.length) :=
    ⟨by decide, by simp⟩
  have nothingAdded := always {} 0 {} {} (numbered 0) rolledPlace [] ⟨"anna"⟩ ⟨.ofNat 1⟩ ⟨.ofNat 3⟩
    default view e' rfl .nil fresh accepted inOrder
  have isActive : view.boost ∈ (e'.historyAt ⟨.ofNat 1⟩ default).activeBoosts ⟨.ofNat 3⟩ := by
    -- what the engine holds by now need not be worked out for this
    clear_value e'
    obtain ⟨added, grown, active⟩ := nothingAdded
    have none : added = [] := List.append_right_eq_self.1 grown.symm
    exact (active default).2 (by simp [none])
  have idle : ((e'.historyAt ⟨.ofNat 1⟩ default).activeBoosts ⟨.ofNat 3⟩).isEmpty = true := by
    decide +kernel
  rw [List.isEmpty_iff] at idle
  exact List.not_mem_nil (idle ▸ isActive)

end Engine

end NoonDraw
