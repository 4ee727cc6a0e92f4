import NoonDraw.Proofs.FreeRolls

/-!
# Histories that grow

Nobody gets a point back by what is added to a history, whoever's it is, whenever it happened, and
wherever it goes among the rest.  A boost is still there and still charged.  A reroll may have been
given another reason: what counts is that some roll goes before it on its day, and that roll is still
there and still goes before it (`History.IsReroll.embed`).  So the rerolls of a week are among those
of the longer history (`History.rerollsIn_subperm`), and with them the charges.

In an engine the draws of a room are added at the end of the log but listed in order of time, so a late
one goes in among the others.  They are a sublist all the same (`Projection.IsDraws.listed_sublist`),
and so nobody's points rise in a week, whatever is asked of the engine
(`Engine.pointsLeft_runAll_le`).
-/

namespace NoonDraw

namespace History

variable {W : Type} {rules : Rules W} {rolls rolls' : List Roll} {boosts boosts' : List Boost}
  {now later : Instant} {user : UserId}

/-! ### What is charged stays charged -/

section Embedding

variable {f : Fin rolls.length ↪o Fin rolls'.length} (same : ∀ i, rolls.get i = rolls'.get (f i))
include same

/-- A roll that goes before another one goes before it in a longer list too. -/
theorem Precedes.embed {i j : Fin rolls.length} (before : Precedes rules rolls i j) :
    Precedes rules rolls' (f i) (f j) := by
  obtain ⟨sameDay, order⟩ := before
  have atI : rolls[i] = rolls'[f i] := same i
  have atJ : rolls[j] = rolls'[f j] := same j
  rw [atI, atJ] at sameDay order
  refine ⟨sameDay, order.imp_right ?_⟩
  rintro ⟨sameTime, given⟩
  exact ⟨sameTime, f.strictMono given⟩

/-- A reroll is a reroll in a longer list too. -/
theorem IsReroll.embed {j : Fin rolls.length} (isReroll : IsReroll rules rolls j) :
    IsReroll rules rolls' (f j) := by
  obtain ⟨i, before⟩ := isReroll
  exact ⟨f i, before.embed same⟩

end Embedding

/-- The rerolls of a week are among those of a longer list. -/
theorem rerollsIn_subperm (more : rolls.Sublist rolls') (now : Instant) :
    (rerollsIn rules rolls now).Subperm (rerollsIn rules rolls' now) := by
  obtain ⟨f, same⟩ := List.sublist_iff_exists_fin_orderEmbedding_get_eq.1 more
  let charged (rolls : List Roll) (i : Fin rolls.length) : Bool :=
    inWeek rules rolls[i].time now && decide (IsReroll rules rolls i)
  have among : (((List.finRange rolls.length).filter (charged rolls)).map f).Subperm
      ((List.finRange rolls'.length).filter (charged rolls')) := by
    apply List.Nodup.subperm
    · exact ((List.nodup_finRange _).filter _).map f.injective
    · intro k hk
      obtain ⟨i, hi, rfl⟩ := List.mem_map.1 hk
      obtain ⟨-, isCharged⟩ := List.mem_filter.1 hi
      obtain ⟨week, isReroll⟩ := Bool.and_eq_true_iff.1 isCharged
      have week' : inWeek rules rolls'[f i].time now = true := by
        have atI : rolls[i] = rolls'[f i] := same i
        rwa [← atI]
      have isReroll' := (of_decide_eq_true isReroll).embed same
      exact List.mem_filter.2 ⟨List.mem_finRange _,
        Bool.and_eq_true_iff.2 ⟨week', decide_eq_true isReroll'⟩⟩
  have own : rerollsIn rules rolls now =
      (((List.finRange rolls.length).filter (charged rolls)).map f).map fun k => rolls'[k] := by
    rw [rerollsIn, List.map_map]
    exact List.map_congr_left fun i _ => same i
  rw [own]
  obtain ⟨chosen, isPerm, sub⟩ := among
  exact ⟨chosen.map fun k => rolls'[k], isPerm.map _, sub.map _⟩

/-- Nobody has spent less in a longer history, at any instant of the same week. -/
theorem pointsSpent_mono (more : rolls.Sublist rolls') (more' : boosts.Sublist boosts')
    (sameWeek : now.isoWeek rules.offset = later.isoWeek rules.offset) (user : UserId) :
    (build rolls boosts now rules).pointsSpent user ≤
      (build rolls' boosts' later rules).pointsSpent user := by
  have week : inWeek rules later now := decide_eq_true sameWeek.symm
  have boosted : (boostsIn rules boosts now).Sublist (boostsIn rules boosts' now) := more'.filter _
  rw [← pointsSpent_congr week, pointsSpent_eq, pointsSpent_eq, chargesIn, chargesIn]
  exact Nat.add_le_add boosted.countP_le ((rerollsIn_subperm more now).countP_le _)

theorem pointsLeft_le_of_pointsSpent_le {h h' : History W} (sameRules : h'.rules = h.rules)
    (spent : h.pointsSpent user ≤ h'.pointsSpent user) : h'.pointsLeft user ≤ h.pointsLeft user := by
  simp only [pointsLeft, sameRules]
  omega

theorem pointsLeft_le_weeklyPoints {h : History W} (points : 0 ≤ h.rules.weeklyPoints) :
    h.pointsLeft user ≤ h.rules.weeklyPoints := by
  have least : leastPoints < 0 := by decide
  simp only [pointsLeft]
  omega

/-- Whatever rolls and boosts are put in among those of a history, and wherever: at any instant of the
same week nobody has more points left by the longer history than by the shorter, and nobody ever has
more than a week gives. -/
theorem pointsLeft_antitone (more : rolls.Sublist rolls') (more' : boosts.Sublist boosts')
    (points : 0 ≤ rules.weeklyPoints)
    (sameWeek : now.isoWeek rules.offset = later.isoWeek rules.offset) (user : UserId) :
    (build rolls' boosts' later rules).pointsLeft user ≤ (build rolls boosts now rules).pointsLeft user ∧
      (build rolls boosts now rules).pointsLeft user ≤ rules.weeklyPoints := by
  constructor
  · exact pointsLeft_le_of_pointsSpent_le rfl (pointsSpent_mono more more' sameWeek user)
  · exact pointsLeft_le_weeklyPoints points

/-- Bert has the only roll of the day, at first.  Two earlier ones turn it into a reroll that he pays
for, and then there is his boost. -/
theorem pointsLeft_antitone_fourRolls :
    let first := build (fourRolls.take 1) [] default Rules.standard
    let all := build fourRolls oneBoost (.ofSeconds 90000) Rules.standard
    (fourRolls.take 1).Sublist fourRolls ∧ ([] : List Boost).Sublist oneBoost ∧
      first.pointsLeft ⟨"bert"⟩ = 1 ∧ all.pointsLeft ⟨"bert"⟩ = -1 ∧
      all.pointsLeft ⟨"bert"⟩ ≤ first.pointsLeft ⟨"bert"⟩ ∧
      first.pointsLeft ⟨"bert"⟩ ≤ Rules.standard.weeklyPoints := by
  intro first all
  have more : (fourRolls.take 1).Sublist fourRolls := List.take_sublist 1 _
  have more' : ([] : List Boost).Sublist oneBoost := List.nil_sublist _
  have sameWeek : Instant.isoWeek Rules.standard.offset default =
      Instant.isoWeek Rules.standard.offset (.ofSeconds 90000) := by decide +kernel
  have spent : all.pointsSpent ⟨"bert"⟩ = 2 := (pointsSpent_eq ..).trans (by decide +kernel)
  have left : all.pointsLeft ⟨"bert"⟩ = -1 := by
    rw [pointsLeft, spent]
    decide
  exact ⟨more, more', by decide +kernel, left,
    pointsLeft_antitone more more' (by decide) sameWeek ⟨"bert"⟩⟩

end History

/-! ### Points along a run -/

/-- The draws of a room are among those that are listed once the log has grown. -/
theorem Projection.IsDraws.listed_sublist {ε : Type} {p : Projection EventId ε} {kind : EventKind}
    {make : Event → Option ε} (draws : p.IsDraws kind make) (room : RoomId) {known added : List Event}
    (distinct : (Loaded.ids (known ++ added)).Nodup) :
    (p.listed room known).Sublist (p.listed room (known ++ added)) := by
  have old : (Loaded.ids known).Nodup :=
    distinct.sublist ((List.sublist_append_left known added).map _)
  let isKnown (e : Event) : Bool := e.id ∈ Loaded.ids known
  have chosen : (p.eventsIn (.room room) (known ++ added)).filter isKnown =
      p.eventsIn (.room room) known := by
    rw [eventsIn_append, List.filter_append]
    have stay : (p.eventsIn (.room room) known).filter isKnown = p.eventsIn (.room room) known :=
      List.filter_eq_self.2 fun e he =>
        decide_eq_true (List.mem_map_of_mem (draws.mem_eventsIn.1 he).1)
    have go : (p.eventsIn (.room room) added).filter isKnown = [] := by
      refine List.filter_eq_nil_iff.2 fun e he twice => ?_
      have unique := distinct
      rw [Loaded.ids, List.map_append, List.nodup_append] at unique
      exact unique.2.2 _ (of_decide_eq_true twice) _
        (List.mem_map_of_mem (draws.mem_eventsIn.1 he).1) rfl
    rw [stay, go, List.append_nil]
  rw [draws.listed_eq room old, draws.listed_eq room distinct, ← chosen, ← Event.filter_sortByTime]
  exact List.filter_sublist.filterMap _

namespace Engine

/-- Whatever is asked of an engine, and with whatever instants, nobody's points rise within a week. -/
theorem pointsLeft_runAll_le (settings : Settings) (entropy : UInt64) (log : EventLog)
    (directory : Directory) (ids : IdSupply) (earlier later : List Command) (room : RoomId)
    (user : UserId) {t t' : Instant} (ungated : log.gated = false)
    (distinct : (Loaded.ids log.events).Nodup)
    (fresh : ids.FreshFor log.events (2 * later.length + 2 * earlier.length))
    (sameWeek : t.isoWeek settings.rules.offset = t'.isoWeek settings.rules.offset) :
    let e := runAll earlier (start settings entropy log directory ids)
    ((runAll later e).historyAt room t').pointsLeft user ≤ (e.historyAt room t).pointsLeft user := by
  intro e
  obtain ⟨events, serves⟩ : ∃ events, e.Serves ⟨events, directory.users, settings.rules, AllFree⟩
      (0 + 2 * later.length) :=
    runAll_serves (w := ⟨log.events, directory.users, settings.rules, AllFree⟩) earlier
      (start_serves settings entropy log directory ungated distinct (by rwa [Nat.zero_add]))
  obtain ⟨added, serves'⟩ := runAll_grows
    (w := ⟨events, directory.users, settings.rules, AllFree⟩) later serves
  rw [serves.historyAt, serves'.historyAt]
  refine History.pointsLeft_le_of_pointsSpent_le rfl ?_
  exact History.pointsSpent_mono (Projection.rolls_isDraws.listed_sublist room serves'.distinct)
    (Projection.boosts_isDraws.listed_sublist room serves'.distinct) sameWeek user

end Engine

end NoonDraw
