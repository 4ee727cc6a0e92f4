import NoonDraw.Proofs.Restart
import NoonDraw.Proofs.TurnCalls

/-!
# No user overspends

Any number of calls of an engine go on at once: they come in at any time, wait for locks and for each
other's loads, meet outages, are dropped wherever they are suspended, and take their instants in any
order.  The rolls and boosts of a room nevertheless leave every user within the points of every week,
as long as those of the room are added in order of time (`pointsLeft_nonneg`).

What carries this is that who holds the lock of a room decides on all its draws: what it adds is
allowed after them (`boost_allowed`, `roll_allowed`), and nobody else adds any meanwhile.
-/

namespace NoonDraw

namespace Projection

/-- Rolls that are added in order of time are listed in order of time. -/
theorem sorted_listed (room : RoomId) {events : List Event} (distinct : (Loaded.ids events).Nodup)
    (inOrder : Event.InOrder events) : History.Sorted (rolls.listed room events) := by
  rw [rolls_isDraws.listed_of_inOrder room distinct inOrder, History.Sorted, List.pairwise_filterMap]
  refine (inOrder.sublist List.filter_sublist).imp ?_
  intro e a le r hr s hs
  rw [(rollTransition_none hr).2, (rollTransition_none hs).2]
  exact le

end Projection

namespace Engine

open Event

variable {terms : Terms} {rules : Rules Float} {room : RoomId} {known : List Event} {user : UserId}
  {now : Instant}

/-! ### What a draw is allowed by -/

/-- A boost is allowed after the draws by which it was found to be. -/
theorem boost_allowed {id : EventId} {place : PlaceId} {payload : String}
    (may : (History.build (Projection.rolls.listed room known)
      (Projection.boosts.listed room known) now rules).mayBoost user) :
    Allowed rules known
      { id, actor := user, room, kind := .boostCreated, time := now, place := some place
        payload } := by
  intro distinct inOrder within
  rw [Projection.rolls_isDraws.listed_concat_other (by simp),
    Projection.boosts_isDraws.listed_concat_own distinct inOrder rfl rfl rfl]
  exact within.boost may

/-- A roll is allowed after the draws by which it was found to be. -/
theorem roll_allowed {id : EventId} {place : PlaceId} {payload : String}
    (may : (History.build (Projection.rolls.listed room known)
      (Projection.boosts.listed room known) now rules).mayRoll user now) :
    Allowed rules known
      { id, actor := user, room, kind := .rollCreated, time := now, place := some place
        payload } := by
  intro distinct inOrder within
  have sorted := Projection.sorted_listed room distinct inOrder
  have own : Projection.rolls.listed room _ = _ :=
    Projection.rolls_isDraws.listed_concat_own distinct inOrder rfl rfl rfl
  rw [own] at sorted
  rw [own, Projection.boosts_isDraws.listed_concat_other (by simp)]
  exact within.roll sorted may

/-! ### Draws -/

theorem boost_steady (user : UserId) (room : RoomId) (id : PlaceId) (now : Instant) :
    (boost user room id now).Steady terms := by
  refine (turnTaking_allowsReads.user? user).bind fun record => ?_
  refine Op.Idle.bind (withRoom_steady fun number known => ?_) fun _ => told_idle tell_steady _ _
  refine .idle_bind (turnTaking_allowsReads.place? room id) ⟨known, rfl⟩ fun found => ?_
  split
  · exact .throw ⟨known, rfl⟩
  · refine .bind (historyLocked_keeps room now number known) ?_
    rintro h _ ⟨rfl, rfl⟩
    dsimp only
    split
    · exact .throw_bind ⟨known, rfl⟩
    next may =>
      exact draw_keeps (Or.inr rfl) (fun _ => boost_allowed (by simpa using may)) fun _ => .pure _

theorem roll_steady (user : UserId) (room : RoomId) (now : Instant) :
    (roll user room now).Steady terms := by
  refine (turnTaking_allowsReads.user? user).bind fun record => ?_
  refine Op.Idle.bind (withRoom_steady fun number known => ?_) fun _ => told_idle tell_steady _ _
  refine .idle_bind (turnTaking_allowsReads.livePlaces room) ⟨known, rfl⟩ ?_
  intro places
  dsimp only
  split
  · exact .throw_bind ⟨known, rfl⟩
  · refine .bind (historyLocked_keeps room now number known) ?_
    rintro h _ ⟨rfl, rfl⟩
    split
    · exact .throw_bind ⟨known, rfl⟩
    next may =>
      refine .idle_bind (pick_steady _) ⟨known, rfl⟩ ?_
      intro picked
      cases picked with
      | none => exact .throw ⟨known, rfl⟩
      | some picked =>
        exact draw_keeps (Or.inl rfl) (fun _ => roll_allowed (by simpa using may)) fun _ => .pure _

/-- A protocol that has nothing against reads, writes and draws has nothing against any command. -/
theorem AllowsWrites.perform {τ : Type} {P : Protocol Engine τ} (writes : AllowsWrites P)
    (boosts : ∀ user room place now, (boost user room place now).Idle P)
    (rolls : ∀ user room now, (roll user room now).Idle P) (c : Command) : c.perform.Idle P := by
  have reads : AllowsReads P := writes.toAllowsReads
  cases c with
  | createRoom user name now => exact (writes.createRoom user name now).bind fun _ => .pure _
  | joinRoom user id now =>
    exact (writes.changeMembership (by decide) user id now).bind fun _ => .pure _
  | leaveRoom user id now =>
    exact (writes.changeMembership (by decide) user id now).bind fun _ => .pure _
  | room id => exact (reads.room id).bind fun _ => .pure _
  | listRooms user => exact (reads.listRooms user).bind fun _ => .pure _
  | createPlace user id name now => exact (writes.createPlace user id name now).bind fun _ => .pure _
  | deletePlace user id place now =>
    exact (writes.togglePlace (by decide) user id place now).bind fun _ => .pure _
  | restorePlace user id place now =>
    exact (writes.togglePlace (by decide) user id place now).bind fun _ => .pure _
  | listPlaces id now => exact (reads.listPlaces id now).bind fun _ => .pure _
  | boost user id place now => exact (boosts user id place now).bind fun _ => .pure _
  | roll user id now => exact (rolls user id now).bind fun _ => .pure _
  | listRolls id => exact (reads.listRolls id).bind fun _ => .pure _
  | listBoosts id => exact (reads.listBoosts id).bind fun _ => .pure _

/-- Every command keeps to the protocol. -/
theorem Command.steady (c : Command) : c.perform.Steady terms :=
  turnTaking_allowsWrites.perform boost_steady roll_steady c

/-! ### Runs -/

/-- What goes on in an engine. -/
inductive Activity where
  /-- A command is carried out. -/
  | command (c : Command)
  /-- Something happens to the notifier: somebody listens to it, or it hands on what it was told. -/
  | notifier (change : Notifier → Notifier)

/-- The process of an activity. -/
def Activity.process : Activity → Process Engine Unit
  | command c => (ExceptT.run c.perform).discard
  | notifier change => .instant fun e => ((), { e with notifier := change e.notifier })

/-- Every activity keeps to the protocol. -/
theorem Activity.member (a : Activity) : (turnTaking terms).Member a.process 0 := by
  cases a with
  | command c =>
    have keeps : (turnTaking terms).Member (ExceptT.run c.perform).discard 0 :=
      Process.Keeps.bind (c.steady.keeps 0) fun _ _ none => .done none
    exact keeps
  | notifier change =>
    exact .instant (quiet_step (fun e => .rest e _ _ _ _ _ _) fun _ => rfl)

theorem weeklyPoints_nonneg (valid : rules.validate = .ok ()) : 0 ≤ rules.weeklyPoints := by
  by_contra negative
  have problem : rules.problem? = some (.negativePoints rules.weeklyPoints) := if_pos (by omega)
  simp [Rules.validate, problem] at valid

/-- An engine that was just started is orderly, and everybody is within the quota if that says the
log. -/
theorem start_orderly (settings : Settings) (entropy : UInt64) {log : EventLog}
    (directory : Directory) {ids : IdSupply} {metered : Prop} {more : Nat}
    (distinct : (Loaded.ids log.events).Nodup) (fresh : ids.FreshFor log.events more)
    (within : metered → ∀ room, InOrder (drawsOf room log.events) →
      History.WithinQuota settings.rules (Projection.rolls.listed room log.events)
        (Projection.boosts.listed room log.events)) :
    Orderly ⟨settings.rules, metered⟩ more (start settings entropy log directory ids) 0 where
  inForce := rfl
  locks := .empty
  ids := .empty distinct fresh
  known _ _ _ _ isHeld := absurd isHeld (Multiset.notMem_zero _)
  within := within
  rolls := Cache.stands_empty _
  boosts := Cache.stands_empty _

/-- Whatever goes on in an engine that was started over an empty log, in whatever order: no user has
ever been charged more points for a week than there are, in any room whose rolls and boosts have been
added in order of time. -/
theorem pointsLeft_nonneg (settings : Settings) (entropy : UInt64) (log : EventLog)
    (directory : Directory) (ids : IdSupply) (moves : List (Move Activity))
    (valid : settings.rules.validate = .ok ()) (empty : log.events = [])
    (fresh : ids.FreshFor [] moves.length) :
    let e := (Crowd.run Activity.process ⟨start settings entropy log directory ids, []⟩ moves).state
    ∀ room, InOrder (drawsOf room e.log.events) → ∀ t user,
      0 ≤ (History.build (Projection.rolls.listed room e.log.events)
        (Projection.boosts.listed room e.log.events) t settings.rules).pointsLeft user := by
  intro e room inOrder
  have started : Orderly ⟨settings.rules, True⟩ (0 + moves.length)
      (start settings entropy log directory ids) 0 := by
    refine start_orderly settings entropy directory (by simp [empty]) (by rwa [Nat.zero_add, empty])
      fun _ room _ => ?_
    rw [empty, Projection.listed_nil, Projection.listed_nil]
    exact History.withinQuota_nil (weeklyPoints_nonneg valid)
  -- every move may draw an identifier, so there have to be as many new ones
  obtain ⟨holdings, -, -, orderly⟩ :=
    Crowd.run_sound (P := turnTaking ⟨settings.rules, True⟩) Activity.member moves started
  exact orderly.within trivial room inOrder

/-- Identifiers by number differ as long as there are enough of them. -/
theorem numbered_freshFor {drawn count : Nat} (enough : drawn + count < 2 ^ 128) :
    (numbered drawn).FreshFor [] count where
  once i hi j hj same := by
    have bits := congrArg (fun x : Identifier => x.bits.toNat) same
    simp only [numbered, Identifier.ofNat, BitVec.toNat_ofNat] at bits
    rw [Nat.mod_eq_of_lt (by omega), Nat.mod_eq_of_lt (by omega)] at bits
    omega
  new i hi e he := absurd he List.not_mem_nil

/-- The first room that is opened. -/
def lunchRoom : RoomId := ⟨.ofNat 1⟩

/-- A room is opened, a place is added by a call that is dropped before it answers, and the room
rolls.  Then a boost and a roll by one user, who has a point for one of them, go on at once. -/
def racing : List (Move Activity) :=
  .enter (.command (.createRoom ⟨"anna"⟩ "lunch" default)) :: List.replicate 14 (.step 0) ++
    .enter (.command (.createPlace ⟨"anna"⟩ lunchRoom "pizza" default)) ::
    List.replicate 10 (.step 1) ++ .drop 1 ::
    .enter (.command (.roll ⟨"bert"⟩ lunchRoom default)) :: List.replicate 30 (.step 2) ++
    .enter (.command (.boost ⟨"anna"⟩ lunchRoom ⟨.ofNat 3⟩ default)) ::
    .enter (.command (.roll ⟨"anna"⟩ lunchRoom default)) ::
    (List.replicate 21 [.step 3, .step 4]).flatten

theorem pointsLeft_nonneg_racing :
    let e := (Crowd.run Activity.process ⟨start {} 0 {} {} (numbered 0), []⟩ racing).state
    (drawsOf lunchRoom e.log.events).map Event.kind = [.rollCreated, .boostCreated] ∧
      ∀ t user, 0 ≤ (History.build (Projection.rolls.listed lunchRoom e.log.events)
        (Projection.boosts.listed lunchRoom e.log.events) t .standard).pointsLeft user :=
  ⟨by decide +kernel, pointsLeft_nonneg {} 0 {} {} (numbered 0) racing rfl rfl
    (numbered_freshFor (by decide)) lunchRoom (by unfold InOrder; decide +kernel)⟩

end Engine

end NoonDraw
