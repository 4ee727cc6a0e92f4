import NoonDraw.Proofs.AcceptedDraws
import NoonDraw.Proofs.Quota

/-!
# Who pays for a draw

A roll is charged by its place among the rolls of its day, and a late one goes in among those that
are there.  If it goes behind the first, its user pays for it.  If it goes before all of them, it takes
the free place, and the user of the roll that was first so far pays the point (`History.payer?`,
`pointsSpent_insert_roll`).  A boost is paid for by its user, late or not.

So an accepted draw costs its user a point, or costs nobody anything, except that a roll earlier than
all others of its day charges somebody else (`pointsLeft_accepted`, `not_only_user_pays`).
-/

namespace NoonDraw

namespace Table

variable {κ α : Type} [Key κ] [DecidableEq κ]

/-- A key has a group iff an item has it. -/
theorem get?_group_eq (key : α → κ) (xs : List α) (k : κ) :
    (group key xs).get? k =
      if xs.filter (fun x => key x = k) = [] then none else some (xs.filter fun x => key x = k) := by
  have items := getD_get?_group key xs k
  cases found : (group key xs).get? k with
  | none =>
    rw [found, Option.getD_none] at items
    rw [if_pos items.symm]
  | some ys =>
    rw [found, Option.getD_some] at items
    rw [if_neg (items ▸ (get?_group key xs found).1), items]

/-- One more item changes its own group. -/
theorem group_insert (key : α → κ) (before after : List α) (x : α) :
    group key (before ++ x :: after) = (group key (before ++ after)).insert (key x)
      ((before ++ x :: after).filter fun y => key y = key x) := by
  refine ext_get? fun k => ?_
  rw [get?_insert, get?_group_eq, get?_group_eq]
  by_cases own : k = key x
  · subst own
    simp
  · have other : compare k (key x) ≠ .eq := fun eq => own (Std.LawfulEqOrd.eq_of_compare eq)
    have apart : ¬ key x = k := fun same => own same.symm
    simp [other, apart]

end Table

namespace History

variable {W : Type} {rules : Rules W} {rolls before after : List Roll} {boosts : List Boost}
  {r : Roll} {t now : Instant} {user : UserId}

/-- The rolls of the local day of an instant, in the order given. -/
def rollsOn (rules : Rules W) (rolls : List Roll) (now : Instant) : List Roll :=
  rolls.filter fun r => r.time.localDay rules.offset = now.localDay rules.offset

/-- Who pays for one more roll of a user: nobody for the first of its day, else the user, unless it is
earlier than all that day, and then the user of the one that was first. -/
def payer? (rules : Rules W) (rolls : List Roll) (user : UserId) (now : Instant) : Option UserId :=
  (rollsOn rules rolls now).head?.map fun first => if first.time ≤ now then user else first.user

/-- One more roll of a day costs a point to who pays for it. -/
theorem costOf_insert (sorted : Sorted (before ++ r :: after))
    (later : ∀ a ∈ after, r.time < a.time) (user : UserId) :
    costOf user (before ++ r :: after) = costOf user (before ++ after) +
      if (before ++ after).head?.map (fun first =>
        if first.time ≤ r.time then r.user else first.user) = some user then 1 else 0 := by
  have sub : (before ++ after).Sublist (before ++ r :: after) :=
    List.Sublist.append (List.Sublist.refl _) (List.sublist_cons_self _ _)
  rw [costOf, costOf, oldestFirst_of_sorted sorted, oldestFirst_of_sorted (sorted.sublist sub)]
  cases before with
  | nil =>
    -- it takes the free place, and the first of those after it has to pay
    cases after with
    | nil => simp
    | cons first rest =>
      have isLater : ¬ first.time ≤ r.time := Instant.not_le.2 (later first List.mem_cons_self)
      by_cases own : first.user = user <;> simp [isLater, own]
  | cons first rest =>
    have notLater : first.time ≤ r.time :=
      (List.pairwise_append.1 sorted).2.2 first List.mem_cons_self r List.mem_cons_self
    by_cases own : r.user = user <;> simp [notLater, own]
    omega

theorem inWeek_of_localDay {a b : Instant}
    (same : a.localDay rules.offset = b.localDay rules.offset) (t : Instant) :
    inWeek rules a t = inWeek rules b t := by
  rw [inWeek, inWeek, decide_eq_decide, Instant.isoWeek, same, ← Instant.isoWeek]

/-- The rolls of a local day are all of one week. -/
theorem filter_week_day (week : inWeek rules now t) (rolls : List Roll) :
    (rolls.filter fun a => inWeek rules a.time t).filter
      (fun a => a.time.localDay rules.offset = now.localDay rules.offset) =
        rollsOn rules rolls now := by
  rw [List.filter_filter, rollsOn]
  apply List.filter_congr
  intro a _
  by_cases same : a.time.localDay rules.offset = now.localDay rules.offset
  · simp [same, inWeek_of_localDay same, week]
  · simp [same]

/-- What the rolls of a week cost changes, by one more roll, as the cost of its day does. -/
theorem total_insert_roll (week : inWeek rules r.time t) (before after : List Roll) (user : UserId) :
    (Table.group (fun a : Roll => a.time.localDay rules.offset)
        ((before ++ r :: after).filter fun a => inWeek rules a.time t)).total (costOf user) +
      costOf user (rollsOn rules (before ++ after) r.time) =
    (Table.group (fun a : Roll => a.time.localDay rules.offset)
        ((before ++ after).filter fun a => inWeek rules a.time t)).total (costOf user) +
      costOf user (rollsOn rules (before ++ r :: after) r.time) := by
  have split : (before ++ r :: after).filter (fun a => inWeek rules a.time t) =
      before.filter (fun a => inWeek rules a.time t) ++
        r :: after.filter fun a => inWeek rules a.time t := by simp [week]
  have insert := Table.total_insert (costOf user)
    (Table.group (fun a : Roll => a.time.localDay rules.offset)
      ((before ++ after).filter fun a => inWeek rules a.time t)) (r.time.localDay rules.offset)
    (rollsOn rules (before ++ r :: after) r.time)
  have old : ((Table.group (fun a : Roll => a.time.localDay rules.offset)
      ((before ++ after).filter fun a => inWeek rules a.time t)).get?
        (r.time.localDay rules.offset)).getD [] = rollsOn rules (before ++ after) r.time := by
    rw [Table.getD_get?_group, filter_week_day week]
  have cost (found : Option (List Roll)) : (found.map (costOf user)).getD 0 =
      costOf user (found.getD []) := by cases found <;> simp [costOf, oldestFirst]
  rw [cost, old] at insert
  rw [split, Table.group_insert, ← List.filter_append, ← split, filter_week_day week]
  exact insert

/-- One more roll costs a point in its week to who pays for it, and nobody else. -/
theorem pointsSpent_insert_roll (sorted : Sorted (before ++ r :: after))
    (later : ∀ a ∈ after, r.time < a.time) (boosts : List Boost) (t : Instant) (rules : Rules W)
    (user : UserId) :
    (build (before ++ r :: after) boosts t rules).pointsSpent user =
      (build (before ++ after) boosts t rules).pointsSpent user +
        if inWeek rules r.time t ∧ payer? rules (before ++ after) r.user r.time = some user
        then 1 else 0 := by
  rw [pointsSpent_build, pointsSpent_build, Nat.add_assoc]
  congr 1
  by_cases week : inWeek rules r.time t
  case neg => simp [week]
  have total := total_insert_roll week before after user
  have onDay : rollsOn rules (before ++ r :: after) r.time =
      rollsOn rules before r.time ++ r :: rollsOn rules after r.time := by simp [rollsOn]
  have sub : (rollsOn rules (before ++ r :: after) r.time).Sublist (before ++ r :: after) :=
    List.filter_sublist
  have laterOnDay : ∀ a ∈ rollsOn rules after r.time, r.time < a.time := fun a ha =>
    later a (List.mem_of_mem_filter ha)
  have cost := costOf_insert (onDay ▸ sorted.sublist sub) laterOnDay user
  have rest : rollsOn rules before r.time ++ rollsOn rules after r.time =
      rollsOn rules (before ++ after) r.time := by simp [rollsOn]
  rw [rest] at cost
  rw [onDay, cost] at total
  simp only [week, payer?, true_and]
  omega

/-- One more boost costs its user a point in its week, and nobody else. -/
theorem pointsSpent_insert_boost (rolls : List Roll) (before after : List Boost) (b : Boost)
    (t : Instant) (rules : Rules W) (user : UserId) :
    (build rolls (before ++ b :: after) t rules).pointsSpent user =
      (build rolls (before ++ after) t rules).pointsSpent user +
        if inWeek rules b.time t ∧ b.user = user then 1 else 0 := by
  rw [pointsSpent_build, pointsSpent_build, List.filter_append, List.filter_append]
  by_cases week : inWeek rules b.time t <;> by_cases own : b.user = user <;> simp [week, own]
  omega

/-! ### What is left -/

/-- One more draw takes the points that it costs, but the count stops at the least value. -/
theorem pointsLeft_charged {h h' : History W} {P : Prop} [Decidable P]
    (spent : h'.pointsSpent user = h.pointsSpent user + if P then 1 else 0)
    (same : h'.rules = h.rules) :
    h'.pointsLeft user = if P then max leastPoints (h.pointsLeft user - 1) else h.pointsLeft user := by
  simp only [pointsLeft, same, spent]
  split <;> omega

/-- Who has a point left pays all of it. -/
theorem pointsLeft_paid {h h' : History W} {P : Prop} [Decidable P]
    (spent : h'.pointsSpent user = h.pointsSpent user + if P then 1 else 0)
    (same : h'.rules = h.rules) (left : P → 0 < h.pointsLeft user) :
    h'.pointsLeft user = h.pointsLeft user - if P then 1 else 0 := by
  have least : leastPoints < 0 := by decide
  rw [pointsLeft_charged spent same]
  split
  next pays =>
    have enough := left pays
    omega
  next => omega

theorem pointsLeft_congr (same : inWeek rules now t) :
    (build rolls boosts t rules).pointsLeft user = (build rolls boosts now rules).pointsLeft user := by
  simp only [pointsLeft, rules_build, pointsSpent_congr same]

/-- A room has rolled on a day iff there are rolls of that day. -/
theorem hasRolledOn_build (rolls : List Roll) (boosts : List Boost) (now : Instant)
    (rules : Rules W) :
    (build rolls boosts now rules).hasRolledOn now = !(rollsOn rules rolls now).isEmpty := by
  have week : inWeek rules now now := by simp [inWeek]
  have onDay := filter_week_day week rolls
  simp only [inWeek] at onDay
  simp only [hasRolledOn, build, Table.contains, Table.get?_map, Option.isSome_map,
    Table.get?_group_eq, onDay]
  cases rollsOn rules rolls now <;> simp

/-- One more boost takes a point from its user, who has one left, and from nobody else. -/
theorem pointsLeft_insert_boost {b : Boost} {before after : List Boost}
    (allowed : (build rolls (before ++ after) b.time rules).mayBoost b.user) (t : Instant)
    (user : UserId) :
    (build rolls (before ++ b :: after) t rules).pointsLeft user =
      (build rolls (before ++ after) t rules).pointsLeft user -
        if inWeek rules b.time t ∧ user = b.user then 1 else 0 := by
  have spent := pointsSpent_insert_boost rolls before after b t rules user
  simp only [eq_comm (a := b.user)] at spent
  refine pointsLeft_paid spent rfl ?_
  rintro ⟨week, rfl⟩
  rw [pointsLeft_congr week]
  exact of_decide_eq_true allowed

/-- One more roll is free if it is the first of its day.  Else it takes a point from its user, who has
one left, unless it is earlier than all that day: then from the user of the one that was first. -/
theorem pointsLeft_insert_roll (sorted : Sorted (before ++ r :: after))
    (later : ∀ a ∈ after, r.time < a.time)
    (allowed : (build (before ++ after) boosts r.time rules).mayRoll r.user r.time) (t : Instant)
    (user : UserId) :
    (build (before ++ r :: after) boosts t rules).pointsLeft user =
      match (rollsOn rules (before ++ after) r.time).head? with
      | none => (build (before ++ after) boosts t rules).pointsLeft user
      | some first =>
        if first.time ≤ r.time then (build (before ++ after) boosts t rules).pointsLeft user -
          if inWeek rules r.time t ∧ user = r.user then 1 else 0
        else if inWeek rules r.time t ∧ user = first.user then
          max leastPoints ((build (before ++ after) boosts t rules).pointsLeft user - 1)
        else (build (before ++ after) boosts t rules).pointsLeft user := by
  have spent := pointsSpent_insert_roll sorted later boosts t rules user
  rw [payer?] at spent
  rw [mayRoll, hasRolledOn_build] at allowed
  cases day : (rollsOn rules (before ++ after) r.time).head? with
  | none => simpa [day] using pointsLeft_charged spent rfl
  | some first =>
    have rolled : (rollsOn rules (before ++ after) r.time).isEmpty = false := by
      cases onDay : rollsOn rules (before ++ after) r.time <;> simp_all
    have left : 0 < (build (before ++ after) boosts r.time rules).pointsLeft r.user := by
      simpa [rolled] using allowed
    simp only [day, Option.map_some, Option.some.injEq, eq_comm (b := user)] at spent
    dsimp only
    split
    next notLater =>
      simp only [if_pos notLater] at spent
      refine pointsLeft_paid spent rfl ?_
      rintro ⟨week, rfl⟩
      rwa [pointsLeft_congr week]
    next isLater =>
      simp only [if_neg isLater] at spent
      exact pointsLeft_charged spent rfl

end History

namespace Engine

open History

variable {w : World} {user : UserId} {room : RoomId} {now : Instant} {id : EventId} {place : PlaceId}
  {events : List Event}

/-! ### What is left after an accepted draw -/

/-- One more boost goes in among the boosts of its room. -/
theorem exists_historyAt_boost
    (distinct : (Loaded.ids (w.events ++ [.ofDraw .boostCreated user room now id place])).Nodup) :
    ∃ before after, ∀ t,
      w.historyAt room t =
        build (Projection.rolls.listed room w.events) (before ++ after) t w.rules ∧
      ({ w with events := w.events ++ [.ofDraw .boostCreated user room now id place] } :
          World).historyAt room t =
        build (Projection.rolls.listed room w.events)
          (before ++ { id, user, place, room, time := now } :: after) t w.rules := by
  have timed : ∀ e b, Projection.boostTransition e none = some b → Boost.time b = e.time :=
    fun _ _ made => (Projection.boostTransition_none made).2
  obtain ⟨before, after, known, listed, -, -⟩ :=
    Projection.boosts_isDraws.listed_insert timed distinct rfl rfl
  have sameRolls : Projection.rolls.listed room (w.events ++ [_]) =
      Projection.rolls.listed room w.events := Projection.rolls_isDraws.listed_concat_other
    (e := .ofDraw .boostCreated user room now id place) (by simp [Event.ofDraw])
  refine ⟨before, after, fun t => ⟨?_, ?_⟩⟩
  · exact congrArg (fun boosts => build _ boosts t w.rules) known
  · exact congrArg₂ (fun rolls boosts => build rolls boosts t w.rules) sameRolls listed

/-- One more roll goes in among the rolls of its room, behind those that are not later. -/
theorem exists_historyAt_roll
    (distinct : (Loaded.ids (w.events ++ [.ofDraw .rollCreated user room now id place])).Nodup) :
    ∃ before after,
      Projection.rolls.listed room w.events = before ++ after ∧
      Sorted (before ++ { id, user, place, room, time := now } :: after) ∧
      (∀ r ∈ after, now < r.time) ∧
      ∀ t, ({ w with events := w.events ++ [.ofDraw .rollCreated user room now id place] } :
          World).historyAt room t =
        build (before ++ { id, user, place, room, time := now } :: after)
          (Projection.boosts.listed room w.events) t w.rules := by
  have timed : ∀ e r, Projection.rollTransition e none = some r → Roll.time r = e.time :=
    fun _ _ made => (Projection.rollTransition_none made).2
  obtain ⟨before, after, known, listed, -, later⟩ :=
    Projection.rolls_isDraws.listed_insert timed distinct rfl rfl
  have sorted := Projection.rolls_isDraws.pairwise_listed timed room distinct
  have sameBoosts : Projection.boosts.listed room (w.events ++ [_]) =
      Projection.boosts.listed room w.events := Projection.boosts_isDraws.listed_concat_other
    (e := .ofDraw .rollCreated user room now id place) (by simp [Event.ofDraw])
  refine ⟨before, after, known, listed ▸ sorted, later, fun t => ?_⟩
  exact congrArg₂ (fun rolls boosts => build rolls boosts t w.rules) listed sameBoosts

variable {e e' : Engine}

/-- An accepted boost takes a point from its user, in its week. -/
theorem pointsLeft_of_boost {view : BoostView} (serves : e.Serves { w with locks := AllFree } 1)
    (accepted : (boost user room place now).run e = (some (.ok view), e')) (t : Instant)
    (other : UserId) :
    (e'.historyAt room t).pointsLeft other =
      (e.historyAt room t).pointsLeft other - if inWeek e.rules now t ∧ other = user then 1 else 0 := by
  obtain ⟨events, serves', -, may, rfl⟩ :=
    (boost_ensures user room now place).accepted 0 serves accepted
  obtain ⟨before, after, history⟩ := exists_historyAt_boost serves'.distinct
  rw [(history now).1] at may
  have known : e.historyAt room t = _ := (serves.historyAt room t).trans (history t).1
  have grown : e'.historyAt room t = _ := (serves'.historyAt room t).trans (history t).2
  rw [known, grown, serves.rules]
  exact pointsLeft_insert_boost (b := { user, place, room, time := now, .. }) may t other

/-- An accepted roll takes a point, in its week, from who pays for it. -/
theorem pointsLeft_of_roll {view : RollView} (serves : e.Serves { w with locks := AllFree } 1)
    (accepted : (roll user room now).run e = (some (.ok view), e')) (t : Instant) (other : UserId) :
    (e'.historyAt room t).pointsLeft other =
      match (rollsOn e.rules (Projection.rolls.listed room e.log.events) now).head? with
      | none => (e.historyAt room t).pointsLeft other
      | some first =>
        if first.time ≤ now then (e.historyAt room t).pointsLeft other -
          if inWeek e.rules now t ∧ other = user then 1 else 0
        else if inWeek e.rules now t ∧ other = first.user then
          max leastPoints ((e.historyAt room t).pointsLeft other - 1)
        else (e.historyAt room t).pointsLeft other := by
  obtain ⟨events, serves', -, -, may, rfl⟩ :=
    (roll_ensures user room now).accepted 0 serves accepted
  obtain ⟨before, after, listed, sorted, later, history⟩ := exists_historyAt_roll serves'.distinct
  have known (u : Instant) : w.historyAt room u =
      build (before ++ after) (Projection.boosts.listed room w.events) u w.rules :=
    congrArg (fun rolls => build rolls _ u w.rules) listed
  have grown : e'.historyAt room t = _ := (serves'.historyAt room t).trans (history t)
  rw [known] at may
  have old : e.historyAt room t = _ := (serves.historyAt room t).trans (known t)
  rw [old, grown, serves.rules, serves.events, listed]
  exact pointsLeft_insert_roll (r := { user, place := view.roll.place, room, time := now, .. })
    sorted later may t other

/-- After any commands, an accepted boost takes exactly one point from its user, in its week.  An
accepted roll is free if it is the first of its day; if it is not, it takes exactly one point from its
user, unless it is earlier than all rolls of its day: then it is the user of the one that was first
who loses the point, unless the count stands at its least value.  Nobody else pays, and no other week
changes. -/
theorem pointsLeft_accepted (settings : Settings) (entropy : UInt64) (log : EventLog)
    (directory : Directory) (ids : IdSupply) (commands : List Command) (user : UserId)
    (room : RoomId) (now : Instant) (ungated : log.gated = false)
    (distinct : (Loaded.ids log.events).Nodup)
    (fresh : ids.FreshFor log.events (1 + 2 * commands.length)) :
    let e := runAll commands (start settings entropy log directory ids)
    (∀ place view e', (boost user room place now).run e = (some (.ok view), e') → ∀ t other,
      (e'.historyAt room t).pointsLeft other = (e.historyAt room t).pointsLeft other -
        if inWeek e.rules now t ∧ other = user then 1 else 0) ∧
    ∀ view e', (roll user room now).run e = (some (.ok view), e') → ∀ t other,
      (e'.historyAt room t).pointsLeft other =
        match (rollsOn e.rules (Projection.rolls.listed room e.log.events) now).head? with
        | none => (e.historyAt room t).pointsLeft other
        | some first =>
          if first.time ≤ now then (e.historyAt room t).pointsLeft other -
            if inWeek e.rules now t ∧ other = user then 1 else 0
          else if inWeek e.rules now t ∧ other = first.user then
            max leastPoints ((e.historyAt room t).pointsLeft other - 1)
          else (e.historyAt room t).pointsLeft other := by
  intro e
  obtain ⟨w, serves⟩ := runAll_start_serves settings entropy directory ungated distinct fresh
  exact ⟨fun place view e' accepted => pointsLeft_of_boost serves accepted,
    fun view e' accepted => pointsLeft_of_roll serves accepted⟩

/-- A room is opened, a place is added to it, and the room rolls in the second hour. -/
def rolledLater : List Command := openedPlace ++ [.roll ⟨"bert"⟩ ⟨.ofNat 1⟩ (.ofSeconds 3600)]

/-- A second roll, in the third hour, is paid for by its user. -/
theorem pointsLeft_accepted_reroll :
    let e := runAll rolledLater (start {} 0 {} {} (numbered 0))
    ∃ view e', (roll ⟨"anna"⟩ ⟨.ofNat 1⟩ (.ofSeconds 7200)).run e = (some (.ok view), e') ∧
      ∀ t other, (e'.historyAt ⟨.ofNat 1⟩ t).pointsLeft other =
        (e.historyAt ⟨.ofNat 1⟩ t).pointsLeft other -
          if inWeek e.rules (.ofSeconds 7200) t ∧ other = ⟨"anna"⟩ then 1 else 0 := by
  intro e
  let e' := ((roll ⟨"anna"⟩ ⟨.ofNat 1⟩ (.ofSeconds 7200)).run e).2
  obtain ⟨view, accepted⟩ : ∃ view, (roll ⟨"anna"⟩ ⟨.ofNat 1⟩ (.ofSeconds 7200)).run e =
      (some (.ok view), e') := Op.exists_accepted (by decide +kernel)
  have firstTime : (rollsOn e.rules (Projection.rolls.listed ⟨.ofNat 1⟩ e.log.events)
      (.ofSeconds 7200)).head?.map Roll.time = some (.ofSeconds 3600) := by decide +kernel
  have charged := (pointsLeft_accepted {} 0 {} {} (numbered 0) rolledLater ⟨"anna"⟩ ⟨.ofNat 1⟩
    (.ofSeconds 7200) rfl .nil ⟨by decide, by simp⟩).2 view e' accepted
  refine ⟨view, e', accepted, fun t other => ?_⟩
  obtain ⟨first, isFirst, time⟩ := Option.map_eq_some_iff.1 firstTime
  have notLater : first.time ≤ .ofSeconds 7200 := by
    rw [time]
    decide
  have paid := charged t other
  rw [isFirst] at paid
  exact paid.trans (if_pos notLater)

/-- A second roll is accepted with an instant in the first hour: it takes the free place, and it is
the user of the first roll who pays. -/
theorem not_only_user_pays :
    ¬ ∀ (settings : Settings) (entropy : UInt64) (log : EventLog) (directory : Directory)
      (ids : IdSupply) (commands : List Command) (user : UserId) (room : RoomId) (now : Instant),
      log.gated = false → (Loaded.ids log.events).Nodup →
      ids.FreshFor log.events (1 + 2 * commands.length) →
      let e := runAll commands (start settings entropy log directory ids)
      (∀ place view e', (boost user room place now).run e = (some (.ok view), e') →
        (∀ t other, other ≠ user →
          (e'.historyAt room t).pointsLeft other = (e.historyAt room t).pointsLeft other) ∧
        ∀ t, inWeek e.rules now t →
          (e'.historyAt room t).pointsLeft user = (e.historyAt room t).pointsLeft user - 1) ∧
      ∀ view e', (roll user room now).run e = (some (.ok view), e') →
        (∀ t other, other ≠ user →
          (e'.historyAt room t).pointsLeft other = (e.historyAt room t).pointsLeft other) ∧
        ∀ t, inWeek e.rules now t →
          (e'.historyAt room t).pointsLeft user = (e.historyAt room t).pointsLeft user -
            if (e.historyAt room now).hasRolledOn now then 1 else 0 := by
  intro always
  let e := runAll rolledLater (start {} 0 {} {} (numbered 0))
  let e' := ((roll ⟨"anna"⟩ ⟨.ofNat 1⟩ default).run e).2
  obtain ⟨view, accepted⟩ : ∃ view, (roll ⟨"anna"⟩ ⟨.ofNat 1⟩ default).run e =
      (some (.ok view), e') := Op.exists_accepted (by decide +kernel)
  have spared : (e'.historyAt ⟨.ofNat 1⟩ default).pointsLeft ⟨"bert"⟩ =
      (e.historyAt ⟨.ofNat 1⟩ default).pointsLeft ⟨"bert"⟩ :=
    ((always {} 0 {} {} (numbered 0) rolledLater ⟨"anna"⟩ ⟨.ofNat 1⟩ default rfl .nil
      ⟨by decide, by simp⟩).2 view e' accepted).1 default ⟨"bert"⟩ (by decide)
  obtain ⟨w, serves⟩ : ∃ w : World, e.Serves { w with locks := AllFree } 1 :=
    runAll_start_serves {} 0 {} rfl .nil ⟨by decide, by simp⟩
  have firstRoll : (rollsOn e.rules (Projection.rolls.listed ⟨.ofNat 1⟩ e.log.events)
      default).head?.map (fun r => (r.user, r.time)) = some (⟨"bert"⟩, .ofSeconds 3600) := by
    decide +kernel
  have left : (e.historyAt ⟨.ofNat 1⟩ default).pointsLeft ⟨"bert"⟩ = 1 := by decide +kernel
  have charged := pointsLeft_of_roll serves accepted default ⟨"bert"⟩
  -- how the engines came about need not be worked out for the rest
  clear_value e e'
  obtain ⟨first, isFirst, same⟩ := Option.map_eq_some_iff.1 firstRoll
  obtain ⟨user, time⟩ := Prod.mk.inj same
  have isLater : ¬ first.time ≤ default := by
    rw [time]
    decide
  have pays : inWeek e.rules default default ∧ (⟨"bert"⟩ : UserId) = first.user :=
    ⟨by simp [inWeek], user.symm⟩
  rw [isFirst] at charged
  dsimp only at charged
  rw [if_neg isLater, if_pos pays, spared, left] at charged
  exact absurd charged (by decide)

end Engine

end NoonDraw
