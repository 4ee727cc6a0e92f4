import NoonDraw.Proofs.DrawableWeights
import NoonDraw.Proofs.FreeRolls

/-!
# What draws are answered

The answer to a roll or a boost is settled by the places, the rolls and the boosts of the room, as the
log has them.  A draw is refused if there is nothing to draw from, whatever points there are; then if
the user has no points left for it; and otherwise it is written (`Engine.draw_verdicts`).

The history that points are counted by is sorted into days and holds one week of rolls.  What is
counted can be read off the lists themselves: whether some roll is of the same day
(`History.mayRoll_build_iff`), and how many boosts and rerolls of the week are the user's
(`History.mayBoost_build_iff`).
-/

namespace NoonDraw

namespace History

variable {W : Type} {rules : Rules W} {rolls : List Roll} {boosts : List Boost} {now : Instant}
  {user : UserId}

/-- Whether some roll is of the local day of an instant. -/
def RolledOn (rules : Rules W) (rolls : List Roll) (now : Instant) : Prop :=
  ∃ r ∈ rolls, r.time.localDay rules.offset = now.localDay rules.offset

instance : Decidable (RolledOn rules rolls now) :=
  inferInstanceAs (Decidable (∃ r ∈ rolls, _))

/-- A user may boost who has fewer boosts and rerolls in the week than there are points. -/
theorem mayBoost_build_iff :
    (build rolls boosts now rules).mayBoost user ↔
      (chargesIn rules rolls boosts now user : Int) < rules.weeklyPoints := by
  rw [mayBoost, decide_eq_true_iff, pointsLeft_pos_iff, pointsSpent_eq, rules_build]

/-- A user may roll who may boost, and anybody may who rolls first on a day. -/
theorem mayRoll_build_iff :
    (build rolls boosts now rules).mayRoll user now ↔
      (RolledOn rules rolls now →
        (chargesIn rules rolls boosts now user : Int) < rules.weeklyPoints) := by
  have rolled : (build rolls boosts now rules).hasRolledOn now ↔ RolledOn rules rolls now := by
    simp [hasRolledOn_build, rollsOn, RolledOn]
  have either : (build rolls boosts now rules).mayRoll user now =
      (!(build rolls boosts now rules).hasRolledOn now ||
        (build rolls boosts now rules).mayBoost user) := rfl
  rw [either, Bool.or_eq_true, mayBoost_build_iff, ← rolled, Bool.not_eq_true', ← Bool.not_eq_true,
    imp_iff_not_or]

end History

namespace Engine

variable {w : World} {user : UserId} {room : RoomId} {place : PlaceId} {now : Instant}

/-! ### Verdicts -/

theorem rollVerdict_eq_noPoints_iff {places : Table PlaceId Place} {h : History Float} :
    rollVerdict places h user now = .error .noPoints ↔
      places.isEmpty = false ∧ ¬ h.mayRoll user now := by
  unfold rollVerdict
  cases places.isEmpty <;> cases h.mayRoll user now <;>
    cases Weight.isUsable (Lottery.total (h.weights places.keys now)) <;> simp

theorem boostVerdict_eq_notFound_iff {found : Option Place} {h : History Float} :
    boostVerdict found h user place = .error (.notFound .place place.id.toText) ↔
      found.filter (fun place => !place.isDeleted) = none := by
  unfold boostVerdict
  cases found.filter fun place => !place.isDeleted <;> cases h.mayBoost user <;> simp

theorem boostVerdict_eq_noPoints_iff {found : Option Place} {h : History Float} :
    boostVerdict found h user place = .error .noPoints ↔
      (found.filter fun place => !place.isDeleted).isSome ∧ ¬ h.mayBoost user := by
  unfold boostVerdict
  cases found.filter fun place => !place.isDeleted <;> cases h.mayBoost user <;> simp

theorem boostVerdict_eq_ok_iff {found : Option Place} {h : History Float} :
    boostVerdict found h user place = .ok () ↔
      (found.filter fun place => !place.isDeleted).isSome ∧ h.mayBoost user := by
  unfold boostVerdict
  cases found.filter fun place => !place.isDeleted <;> cases h.mayBoost user <;> simp

/-- The live places of a room are those that are there and not deleted. -/
theorem mem_livePlacesIn_iff {e : Engine} {supply : Nat} (serves : e.Serves w supply) :
    place ∈ (e.livePlacesIn room).keys ↔
      (((w.state Projection.places (.room room)).get? place).filter
        fun place => !place.isDeleted).isSome := by
  rw [serves.livePlacesIn, Table.mem_keys_iff, World.livePlacesIn, Table.get?_filter]

/-! ### Answers -/

/-- A roll is refused without places; then, if the weights can be drawn by, it is refused for want of
points, or one of the places is drawn and written. -/
theorem Serves.roll_verdict {e : Engine} (serves : e.Serves { w with locks := AllFree } 1)
    (reliable : e.Reliable) (user : UserId) (room : RoomId) (now : Instant) :
    ∃ r e', (roll user room now).run e = (some r, e') ∧
      ((e.livePlacesIn room).keys = [] → r = .error .noPlaces) ∧
      ((e.livePlacesIn room).keys ≠ [] → Weight.isUsable (Lottery.total
          ((e.historyAt room now).weights (e.livePlacesIn room).keys now)) →
        (r = .error .noPoints ↔ ¬ (e.historyAt room now).mayRoll user now) ∧
        ((e.historyAt room now).mayRoll user now → ∃ view, r = .ok view ∧
          view.roll.place ∈ (e.livePlacesIn room).keys ∧ e'.log.events = e.log.events ++
            [.ofDraw .rollCreated user room now view.roll.id view.roll.place])) := by
  obtain ⟨r, e', ran, verdict⟩ := serves.exists_rollVerdict reliable user room now
  have empty_iff : (e.livePlacesIn room).isEmpty ↔ (e.livePlacesIn room).keys = [] := by
    simp [Table.isEmpty, Table.keys]
  refine ⟨r, e', ran, fun none => ?_, fun some usable => ?_⟩
  · rw [← map_eq_error_iff, verdict, rollVerdict_eq_noPlaces_iff]
    exact .inl (empty_iff.2 none)
  have isSome : (e.livePlacesIn room).isEmpty = false := Bool.not_eq_true _ ▸ mt empty_iff.1 some
  refine ⟨?_, fun may => ?_⟩
  · rw [← map_eq_error_iff, verdict, rollVerdict_eq_noPoints_iff, and_iff_right isSome]
  · obtain ⟨view, rfl⟩ : ∃ view, r = .ok view :=
      map_eq_ok_iff.1 (verdict.trans (rollVerdict_eq_ok_iff.2 ⟨isSome, may, usable⟩))
    obtain ⟨events, serves', -, isLive, -, written⟩ :=
      (roll_ensures user room now).accepted 0 serves ran
    refine ⟨view, rfl, ?_, ?_⟩
    · rw [serves.livePlacesIn]
      exact isLive
    · rw [serves'.events, serves.events]
      exact written

/-- A boost is refused without its place, then for want of points, and otherwise it is written. -/
theorem Serves.boost_verdict {e : Engine} (serves : e.Serves { w with locks := AllFree } 1)
    (reliable : e.Reliable) (user : UserId) (room : RoomId) (place : PlaceId) (now : Instant) :
    ∃ r e', (boost user room place now).run e = (some r, e') ∧
      (r = .error (.notFound .place place.id.toText) ↔ place ∉ (e.livePlacesIn room).keys) ∧
      (place ∈ (e.livePlacesIn room).keys →
        (r = .error .noPoints ↔ ¬ (e.historyAt room now).mayBoost user) ∧
        ((e.historyAt room now).mayBoost user → ∃ view, r = .ok view ∧ e'.log.events =
          e.log.events ++ [.ofDraw .boostCreated user room now view.boost.id place])) := by
  obtain ⟨r, e', events, ran, serves', -, outcome⟩ :=
    boost_ensures_verdict user room place now 0 e serves
  have verdict := outcome.resolve_right fun failed => failed.1 reliable
  rw [mem_livePlacesIn_iff serves, serves.historyAt]
  refine ⟨r, e', ran, ?_, fun isLive => ⟨?_, fun may => ?_⟩⟩
  · rw [← map_eq_error_iff, verdict, boostVerdict_eq_notFound_iff, Option.not_isSome_iff_eq_none]
    rfl
  · rw [← map_eq_error_iff, verdict, boostVerdict_eq_noPoints_iff]
    exact and_iff_right isLive
  · obtain ⟨view, rfl⟩ : ∃ view, r = .ok view :=
      map_eq_ok_iff.1 (verdict.trans (boostVerdict_eq_ok_iff.2 ⟨isLive, may⟩))
    obtain ⟨events', serves'', -, -, written⟩ :=
      (boost_ensures user room now place).accepted 0 serves ran
    refine ⟨view, rfl, ?_⟩
    rw [serves''.events, serves.events]
    exact written

/-- Without outages, a roll in a room without live places is refused for lack of places.  If there are
live places, and their weights can be drawn by, it is refused for want of points exactly if the room
has rolled on that day and the user has as many boosts and rerolls in that week as there are points,
and otherwise it is written, for a live place.

A boost is refused as not found exactly if its place is not live in the room.  If the place is live,
it is refused for want of points exactly if the user has as many boosts and rerolls in that week as
there are points, and otherwise it is written. -/
theorem draw_verdicts (settings : Settings) (entropy : UInt64) (log : EventLog)
    (directory : Directory) (ids : IdSupply) (commands : List Command) (user : UserId) (room : RoomId)
    (place : PlaceId) (now : Instant) (ungated : log.gated = false)
    (distinct : (Loaded.ids log.events).Nodup)
    (fresh : ids.FreshFor log.events (1 + 2 * commands.length)) :
    let e := (runAll commands (start settings entropy log directory ids)).recovered
    let rules := settings.rules
    let rolls := Projection.rolls.listed room e.log.events
    let boosts := Projection.boosts.listed room e.log.events
    let live := (e.livePlacesIn room).keys
    let weights := (History.build rolls boosts now rules).weights live now
    let spent : Int := History.chargesIn rules rolls boosts now user
    (∃ r e', (roll user room now).run e = (some r, e') ∧
      (live = [] → r = .error .noPlaces) ∧
      (live ≠ [] → Weight.isUsable (Lottery.total weights) →
        (r = .error .noPoints ↔ History.RolledOn rules rolls now ∧ rules.weeklyPoints ≤ spent) ∧
        (¬ (History.RolledOn rules rolls now ∧ rules.weeklyPoints ≤ spent) →
          ∃ view, r = .ok view ∧ view.roll.place ∈ live ∧ e'.log.events = e.log.events ++
            [.ofDraw .rollCreated user room now view.roll.id view.roll.place]))) ∧
    ∃ r e', (boost user room place now).run e = (some r, e') ∧
      (r = .error (.notFound .place place.id.toText) ↔ place ∉ live) ∧
      (place ∈ live →
        (r = .error .noPoints ↔ rules.weeklyPoints ≤ spent) ∧
        (spent < rules.weeklyPoints → ∃ view, r = .ok view ∧ e'.log.events = e.log.events ++
          [.ofDraw .boostCreated user room now view.boost.id place])) := by
  intro e rules rolls boosts live weights spent
  obtain ⟨events, serves⟩ : ∃ events, Serves ⟨events, directory.users, settings.rules, AllFree⟩ 1
      (runAll commands (start settings entropy log directory ids)) :=
    runAll_serves (w := ⟨log.events, directory.users, settings.rules, AllFree⟩) commands
      (start_serves settings entropy log directory ungated distinct fresh)
  have sameRules : e.rules = rules := serves.rules
  have history : e.historyAt room now = .build rolls boosts now rules := by
    rw [historyAt, sameRules]
  have mayRoll_iff : (e.historyAt room now).mayRoll user now ↔
      ¬ (History.RolledOn rules rolls now ∧ rules.weeklyPoints ≤ spent) := by
    rw [history, History.mayRoll_build_iff, not_and, not_le]
  have mayBoost_iff : (e.historyAt room now).mayBoost user ↔ spent < rules.weeklyPoints := by
    rw [history, History.mayBoost_build_iff]
  have rolled := Serves.roll_verdict (w := ⟨events, directory.users, settings.rules, AllFree⟩)
    serves.recovered (recovered_reliable _) user room now
  have boosted := Serves.boost_verdict (w := ⟨events, directory.users, settings.rules, AllFree⟩)
    serves.recovered (recovered_reliable _) user room place now
  rw [mayRoll_iff, not_not, history] at rolled
  rw [mayBoost_iff, not_lt] at boosted
  exact ⟨rolled, boosted⟩

/-- A room rolls, and the user who rolled spends their point on a boost. -/
def spentUp : List Command :=
  rolledLater ++ [.boost ⟨"bert"⟩ ⟨.ofNat 1⟩ ⟨.ofNat 3⟩ (.ofSeconds 5400)]

/-- He cannot roll any more, while another user can boost.  A place that there is not is not found,
points or no points. -/
theorem draw_verdicts_spentUp :
    let e := (runAll spentUp (start {} 0 {} {} (numbered 0))).recovered
    (∃ e', (roll ⟨"bert"⟩ ⟨.ofNat 1⟩ (.ofSeconds 7200)).run e = (some (.error .noPoints), e')) ∧
      (∃ e', (boost ⟨"bert"⟩ ⟨.ofNat 1⟩ ⟨.ofNat 9⟩ (.ofSeconds 7200)).run e =
        (some (.error (.notFound .place (Identifier.ofNat 9).toText)), e')) ∧
      ∃ view e', (boost ⟨"anna"⟩ ⟨.ofNat 1⟩ ⟨.ofNat 3⟩ (.ofSeconds 7200)).run e =
        (some (.ok view), e') := by
  intro e
  let rolls := Projection.rolls.listed ⟨.ofNat 1⟩ e.log.events
  let boosts := Projection.boosts.listed ⟨.ofNat 1⟩ e.log.events
  obtain ⟨live, usable, rolled, spent, left⟩ :
      (e.livePlacesIn ⟨.ofNat 1⟩).keys = [⟨.ofNat 3⟩] ∧
      Weight.isUsable (Lottery.total ((History.build rolls boosts (.ofSeconds 7200)
        Rules.standard).weights (e.livePlacesIn ⟨.ofNat 1⟩).keys (.ofSeconds 7200))) ∧
      History.RolledOn Rules.standard rolls (.ofSeconds 7200) ∧
      History.chargesIn Rules.standard rolls boosts (.ofSeconds 7200) ⟨"bert"⟩ = 1 ∧
      History.chargesIn Rules.standard rolls boosts (.ofSeconds 7200) ⟨"anna"⟩ = 0 := by
    decide +kernel
  obtain ⟨⟨r, e₁, ran₁, -, verdict⟩, r', e₂, ran₂, notFound_iff, -⟩ := draw_verdicts {} 0 {} {}
    (numbered 0) spentUp ⟨"bert"⟩ ⟨.ofNat 1⟩ ⟨.ofNat 9⟩ (.ofSeconds 7200) rfl .nil
    ⟨by decide, by simp⟩
  obtain ⟨-, r'', e₃, ran₃, -, verdict'⟩ := draw_verdicts {} 0 {} {}
    (numbered 0) spentUp ⟨"anna"⟩ ⟨.ofNat 1⟩ ⟨.ofNat 3⟩ (.ofSeconds 7200) rfl .nil
    ⟨by decide, by simp⟩
  have some : (e.livePlacesIn ⟨.ofNat 1⟩).keys ≠ [] := live ▸ List.cons_ne_nil _ _
  obtain rfl : r = .error .noPoints := (verdict some usable).1.2 ⟨rolled, by rw [spent]; decide⟩
  obtain rfl : r' = .error _ := notFound_iff.2 (by rw [live]; decide)
  obtain ⟨view, rfl, -⟩ := (verdict' (by rw [live]; decide)).2 (by rw [left]; decide)
  exact ⟨⟨e₁, ran₁⟩, ⟨e₂, ran₂⟩, view, e₃, ran₃⟩

end Engine

end NoonDraw
