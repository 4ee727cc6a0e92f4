import NoonDraw.Proofs.DrawableWeights

/-!
# Freshness

Without boosts, a place weighs as much as the days it has not been rolled, and one more, as long as
these are fewer than the places of the room; a place never rolled weighs as much as there are places
(`History.idle_weighs_freshness`).  The last roll of a place is the latest of its rolls in whatever
order they are listed (`History.lastRolled_build_eq_some_iff`).

Days are counted by the nanoseconds that have passed (`Instant.nanosSince`).  In the order of instants,
in which a leap second is one of its own, they are the days that have passed in seconds twice as long,
but for leap seconds that end a day.  Their time of day is counted as one in the first second of the
next day, so that a day may be counted too early there (`Instant.Overcounts`) or too late
(`Instant.Undercounts`).  Everywhere else, time passes as instants follow each other
(`Instant.wholeDaysSince_le`).
-/

namespace NoonDraw

/-! ### Time that has passed -/

namespace Instant

instance : Std.IsLinearOrder Instant where
  le_refl := Instant.le_refl
  le_trans _ _ _ := Instant.le_trans
  le_antisymm _ _ := Instant.le_antisymm
  le_total a b := Int.le_total a.rank b.rank

instance : Std.LawfulOrderMax Instant where
  max_eq_or a b := by
    simp only [Max.max]
    split
    · exact .inr rfl
    · exact .inl rfl
  max_le_iff a b c := by
    simp only [Max.max, le_def]
    split <;> omega

section WholeDays

variable {t t' earlier earlier' : Instant}

/-- The nanoseconds of a day of 24 hours. -/
def dayLength : Int := 24 * 60 * 60 * 1000000000

/-- The nanoseconds from one instant to another; none if the other is the earlier one. -/
def elapsed (earlier t : Instant) : Int := max 0 (t.nanosSince earlier)

/-- Full days can be counted by nanoseconds. -/
theorem wholeDaysSince_eq (t earlier : Instant) :
    t.wholeDaysSince earlier = (earlier.elapsed t / dayLength).toNat := by
  have byHours (n : Int) :
      (max 0 (n.tdiv (60 * 60 * 1000000000)) / 24).toNat = (max 0 n / dayLength).toNat := by
    unfold dayLength
    rcases Int.le_total 0 n with passed | ahead
    · rw [Int.tdiv_eq_ediv_of_nonneg passed]
      omega
    · have toZero : 0 ≤ (-n).tdiv (60 * 60 * 1000000000) :=
        Int.tdiv_nonneg (by omega) (by decide)
      rw [Int.neg_tdiv] at toZero
      omega
  exact byHours (t.nanosSince earlier)

/-- The full days fit the time that has passed, and one more does not. -/
theorem wholeDaysSince_bounds (t earlier : Instant) :
    t.wholeDaysSince earlier * dayLength ≤ earlier.elapsed t ∧
      earlier.elapsed t < (t.wholeDaysSince earlier + 1) * dayLength := by
  have := wholeDaysSince_eq t earlier
  simp only [elapsed, dayLength] at this ⊢
  omega

/-- It lies in a leap second that ends a day in UTC. -/
def ClosesDay (t : Instant) : Prop := t.secondOfDay = 86399 ∧ 1000000000 ≤ t.nanos

/-- It lies in the first second of a day in UTC. -/
def OpensDay (t : Instant) : Prop := t.secondOfDay = 0

/-- How far an instant is into its second, or into its leap second. -/
def subsecond (t : Instant) : Nat := t.nanos % 1000000000

instance (t : Instant) : Decidable t.ClosesDay := instDecidableAnd
instance (t : Instant) : Decidable t.OpensDay := inferInstanceAs (Decidable (t.secondOfDay = 0))

/-- In the leap second `t`, which ends a day, one more day since `earlier` is counted as over than in
the order of instants. -/
def Overcounts (t earlier : Instant) : Prop :=
  t.ClosesDay ∧ earlier.OpensDay ∧ earlier.subsecond ≤ t.subsecond

/-- In `t`, the first second of a day, one day less since the leap second `earlier` is counted as over
than in the order of instants. -/
def Undercounts (t earlier : Instant) : Prop :=
  t.OpensDay ∧ earlier.ClosesDay ∧ t.subsecond < earlier.subsecond

instance (t earlier : Instant) : Decidable (t.Overcounts earlier) := instDecidableAnd
instance (t earlier : Instant) : Decidable (t.Undercounts earlier) := instDecidableAnd

theorem leapSecondsSince_cases (t earlier : Instant) :
    (earlier.secondOfDay < t.secondOfDay ∧ 1000000000 ≤ earlier.nanos ∧
        t.leapSecondsSince earlier = 1) ∨
      (t.secondOfDay < earlier.secondOfDay ∧ 1000000000 ≤ t.nanos ∧
        t.leapSecondsSince earlier = -1) ∨
      (¬ (earlier.secondOfDay < t.secondOfDay ∧ 1000000000 ≤ earlier.nanos) ∧
        ¬ (t.secondOfDay < earlier.secondOfDay ∧ 1000000000 ≤ t.nanos) ∧
        t.leapSecondsSince earlier = 0) := by
  unfold leapSecondsSince
  split
  next later => exact .inl ⟨later.1, later.2, rfl⟩
  next notLater =>
    split
    next sooner => exact .inr (.inl ⟨sooner.1, sooner.2, rfl⟩)
    next notSooner => exact .inr (.inr ⟨notLater, notSooner, rfl⟩)

/-- The days counted are those in the order of instants, in which each second is as long as two, but
for the leap seconds that end a day. -/
theorem nanosSince_ediv_cases (t earlier : Instant) :
    let counted := t.nanosSince earlier / dayLength
    let ordered := (t.rank - earlier.rank) / (2 * dayLength)
    t.Overcounts earlier ∧ counted = ordered + 1 ∨ t.Undercounts earlier ∧ counted = ordered - 1 ∨
      ¬ t.Overcounts earlier ∧ ¬ t.Undercounts earlier ∧ counted = ordered := by
  have := t.nanos_lt
  have := earlier.nanos_lt
  obtain leap | leap | leap := leapSecondsSince_cases t earlier
  all_goals
    simp only [secondOfDay] at leap
    simp only [Overcounts, Undercounts, ClosesDay, OpensDay, subsecond, secondOfDay, nanosSince,
      dayLength, rank, leap]
    omega

/-- Where no day is counted too early or too late, there are no fewer full days between instants that
are no closer in the order of instants. -/
theorem wholeDaysSince_le (most : ¬ t.Overcounts earlier) (least : ¬ t'.Undercounts earlier')
    (le : t.rank - earlier.rank ≤ t'.rank - earlier'.rank) :
    t.wholeDaysSince earlier ≤ t'.wholeDaysSince earlier' := by
  have upper : t.nanosSince earlier / dayLength ≤ (t.rank - earlier.rank) / (2 * dayLength) := by
    obtain ⟨early, -⟩ | ⟨-, counted⟩ | ⟨-, -, counted⟩ := nanosSince_ediv_cases t earlier
    · exact absurd early most
    all_goals omega
  have lower :
      (t'.rank - earlier'.rank) / (2 * dayLength) ≤ t'.nanosSince earlier' / dayLength := by
    obtain ⟨-, counted⟩ | ⟨late, -⟩ | ⟨-, -, counted⟩ := nanosSince_ediv_cases t' earlier'
    · omega
    · exact absurd late least
    · omega
  have ordered := Int.ediv_le_ediv (c := 2 * dayLength) (by decide) le
  have passed := (upper.trans ordered).trans lower
  rw [wholeDaysSince_eq, wholeDaysSince_eq, elapsed, elapsed]
  simp only [dayLength] at passed ⊢
  omega

end WholeDays

end Instant

/-- Keys are given values that are computed from them. -/
theorem Table.get?_insertAll_map {κ α : Type} [Key κ] (f : κ → α) {ks : List κ} {k : κ}
    {t : Table κ α} (given : k ∈ ks ∨ t.get? k = some (f k)) :
    (t.insertAll (ks.map fun k => (k, f k))).get? k = some (f k) := by
  induction ks generalizing t with
  | nil => exact given.resolve_left List.not_mem_nil
  | cons first rest ih =>
    refine ih (t := t.insert first (f first)) (or_iff_not_imp_left.2 fun notLater => ?_)
    by_cases same : k = first
    · rw [same, get?_insert_self]
    · rw [get?_insert_of_ne _ _ same]
      exact given.resolve_left fun listed => (List.mem_cons.1 listed).elim same notLater

namespace History

/-! ### The last roll -/

section LastRoll

variable {W : Type} {rolls : List Roll} {place : PlaceId}

/-- An instant at which a place was rolled, and later than which it was not. -/
def IsLastRoll (rolls : List Roll) (place : PlaceId) (t : Instant) : Prop :=
  (∃ r ∈ rolls, r.place = place ∧ r.time = t) ∧ ∀ r ∈ rolls, r.place = place → r.time ≤ t

theorem IsLastRoll.unique {last last' : Instant} (isLast : IsLastRoll rolls place last)
    (isLast' : IsLastRoll rolls place last') : last = last' := by
  obtain ⟨⟨r, listed, atPlace, rfl⟩, latest⟩ := isLast
  obtain ⟨⟨r', listed', atPlace', rfl⟩, latest'⟩ := isLast'
  exact Instant.le_antisymm (latest' r listed atPlace) (latest r' listed' atPlace')

/-- The instants at which a place was rolled. -/
def rollTimes (rolls : List Roll) (place : PlaceId) : List Instant :=
  (rolls.filter fun r => r.place = place).map Roll.time

/-- What a further instant makes of the latest one. -/
def later (last : Option Instant) (t : Instant) : Option Instant := some (max (last.getD t) t)

theorem foldl_later (times : List Instant) : times.foldl later none = times.max? := by
  have from_some (last : Instant) (times : List Instant) :
      times.foldl later (some last) = some (times.foldl max last) := by
    induction times generalizing last with
    | nil => rfl
    | cons t times ih => exact ih (max last t)
  cases times with
  | nil => rfl
  | cons t times =>
    have first : later none t = some t := congrArg some (by simp [Max.max])
    rw [List.foldl_cons, first, from_some]
    rfl

theorem get?_lastRollTimes : (lastRollTimes rolls).get? place = (rollTimes rolls place).max? := by
  -- the table keeps for the place what its own rolls make of the entry
  have from_table (times : Table PlaceId Instant) :
      (rolls.foldl (fun times r => times.alter r.place (later · r.time)) times).get? place =
        (rollTimes rolls place).foldl later (times.get? place) := by
    induction rolls generalizing times with
    | nil => rfl
    | cons r rolls ih =>
      rw [List.foldl_cons, ih, Table.get?_alter]
      by_cases same : r.place = place
      · simp [rollTimes, same]
      · have other : compare place r.place ≠ .eq := fun eq =>
          same (Std.LawfulEqOrd.eq_of_compare eq).symm
        simp [rollTimes, same, other]
  rw [← foldl_later]
  exact from_table ∅

theorem lastRolled_build_eq_some_iff {boosts : List Boost} {t last : Instant} {rules : Rules W} :
    (build rolls boosts t rules).lastRolled place = some last ↔ IsLastRoll rolls place last := by
  rw [lastRolled, build]
  dsimp only
  rw [get?_lastRollTimes, List.max?_eq_some_iff, IsLastRoll, rollTimes, List.forall_mem_map]
  simp [and_assoc]

theorem lastRolled_build_eq_none_iff {boosts : List Boost} {t : Instant} {rules : Rules W} :
    (build rolls boosts t rules).lastRolled place = none ↔ ∀ r ∈ rolls, r.place ≠ place := by
  rw [lastRolled, build]
  dsimp only
  rw [get?_lastRollTimes, List.max?_eq_none_iff]
  simp [rollTimes]

end LastRoll

/-! ### Weights without boosts -/

section Freshness

variable {W : Type} {h : History W} {total : Nat} {now : Instant} {place : PlaceId}

theorem freshness_of_never (never : h.lastRolled place = none) :
    h.freshness total now place = total := by
  rw [freshness, never]

theorem freshness_of_lastRolled {last : Instant} (rolled : h.lastRolled place = some last) :
    h.freshness total now place = min total (1 + now.wholeDaysSince last) := by
  rw [freshness, rolled]
  dsimp only
  split <;> omega

theorem freshness_le (h : History W) (total : Nat) (now : Instant) (place : PlaceId) :
    h.freshness total now place ≤ total := by
  cases rolled : h.lastRolled place with
  | none => exact (freshness_of_never rolled).le
  | some last => exact (freshness_of_lastRolled rolled).le.trans (Nat.min_le_left _ _)

/-- Freshness depends on the last roll of a place only. -/
theorem freshness_congr {h' : History W} {place' : PlaceId}
    (same : h.lastRolled place = h'.lastRolled place') :
    h.freshness total now place = h'.freshness total now place' := by
  rw [freshness, freshness, same]

/-- A place is no less fresh than another one if there are no fewer full days since its last roll. -/
theorem freshness_mono {h' : History W} {now' : Instant} {place' : PlaceId}
    (fresher : ∀ last', h'.lastRolled place' = some last' →
      ∃ last, h.lastRolled place = some last ∧
        now.wholeDaysSince last ≤ now'.wholeDaysSince last') :
    h.freshness total now place ≤ h'.freshness total now' place' := by
  cases rolled' : h'.lastRolled place' with
  | none =>
    rw [freshness_of_never rolled']
    exact h.freshness_le total now place
  | some last' =>
    obtain ⟨last, rolled, le⟩ := fresher last' rolled'
    rw [freshness_of_lastRolled rolled, freshness_of_lastRolled rolled']
    omega

/-- The multiplier is applied to the freshness of a place once for each active boost. -/
theorem weight_eq_iterate [Weight W] (h : History W) (total : Nat) (now : Instant) (place : PlaceId) :
    h.weight total now place = (· * h.rules.boostMultiplier)^[(h.activeBoosts place).length]
      (Weight.ofCount (h.freshness total now place)) :=
  List.foldl_const (· * h.rules.boostMultiplier) _ _

end Freshness

/-- A place weighs so much among some places, to the last bit. -/
def Weighs (h : History Float) (places : List PlaceId) (now : Instant) (place : PlaceId) (k : Nat) :
    Prop :=
  ∃ x, (h.weights places now).get? place = some x ∧ Double.Is x k

theorem Weighs.unique {h : History Float} {places : List PlaceId} {now : Instant} {place : PlaceId}
    {k k' : Nat} (weighs : h.Weighs places now place k) (weighs' : h.Weighs places now place k') :
    k = k' := by
  obtain ⟨x, found, is⟩ := weighs
  obtain ⟨x', found', is'⟩ := weighs'
  obtain rfl := Option.some.inj (found.symm.trans found')
  exact_mod_cast is.unique is'

/-- Without boosts, a place weighs as much as it is fresh. -/
theorem weighs_freshness {h : History Float} {places : List PlaceId} {place : PlaceId}
    (few : places.length < 2 ^ 32) (isPlace : place ∈ places) (idle : h.activeBoosts place = [])
    (now : Instant) : h.Weighs places now place (h.freshness places.length now place) := by
  have most := h.freshness_le places.length now place
  have exact : min (h.freshness places.length now place) (UInt32.size - 1) =
      h.freshness places.length now place := Nat.min_eq_left (by
    change _ ≤ 2 ^ 32 - 1
    omega)
  refine ⟨h.weight places.length now place, Table.get?_insertAll_map _ (.inl isPlace), ?_⟩
  rw [weight_eq_iterate, idle, List.length_nil, Function.iterate_zero_apply, Weight.ofCount, exact]
  exact Double.is_ofNat (by omega)

/-- A place without active boosts weighs as much as there are places if it was never rolled, and
otherwise one more than the full days from its last roll on, but no more than there are places.  It
weighs no less as time passes, and no less than another place without boosts that was rolled last when
it was, or after it; unless one of the two is counted a day too early or too late, from or to a leap
second that ends a day. -/
theorem idle_weighs_freshness (rules : Rules Float) (rolls : List Roll) (boosts : List Boost)
    (t now : Instant) (places : List PlaceId) (place : PlaceId) (few : places.length < 2 ^ 32)
    (isPlace : place ∈ places) (idle : (build rolls boosts t rules).activeBoosts place = []) :
    let h := build rolls boosts t rules
    (∃ k, h.Weighs places now place k ∧ 1 ≤ k ∧ k ≤ places.length ∧
      ((∀ r ∈ rolls, r.place ≠ place) → k = places.length) ∧
      ∀ last, IsLastRoll rolls place last → ∃ days : Nat, k = min places.length (1 + days) ∧
        days * Instant.dayLength ≤ last.elapsed now ∧
        last.elapsed now < (days + 1) * Instant.dayLength) ∧
    (∀ boosts' t' now', let h' := build rolls boosts' t' rules
      h'.activeBoosts place = [] → now ≤ now' →
      (∀ last, IsLastRoll rolls place last → ¬ now.Overcounts last ∧ ¬ now'.Undercounts last) →
      ∀ k k', h.Weighs places now place k → h'.Weighs places now' place k' → k ≤ k') ∧
    ∀ other ∈ places, h.activeBoosts other = [] →
      (∀ last, IsLastRoll rolls place last → ∃ last', IsLastRoll rolls other last' ∧
        last ≤ last' ∧ ¬ now.Overcounts last' ∧ ¬ now.Undercounts last) →
      ∀ k k', h.Weighs places now place k → h.Weighs places now other k' → k' ≤ k := by
  intro h
  have weighs := weighs_freshness few isPlace idle now
  refine ⟨⟨_, weighs, ?_, h.freshness_le _ _ _, ?_, ?_⟩, ?_, ?_⟩
  · exact h.freshness_pos now (List.length_pos_of_mem isPlace) place
  · intro never
    exact freshness_of_never (lastRolled_build_eq_none_iff.2 never)
  · intro last isLast
    obtain ⟨least, most⟩ := Instant.wholeDaysSince_bounds now last
    exact ⟨now.wholeDaysSince last,
      freshness_of_lastRolled (lastRolled_build_eq_some_iff.2 isLast), least, most⟩
  · intro boosts' t' now' h' idle' passes fair k k' weighsK weighsK'
    rw [weighsK.unique weighs, weighsK'.unique (weighs_freshness few isPlace idle' now')]
    apply freshness_mono
    intro last rolled
    obtain ⟨most, least⟩ := fair last (lastRolled_build_eq_some_iff.1 rolled)
    exact ⟨last, rolled, Instant.wholeDaysSince_le most least (Int.sub_le_sub_right passes _)⟩
  · intro other isOther idleOther older k k' weighsK weighsK'
    rw [weighsK.unique weighs, weighsK'.unique (weighs_freshness few isOther idleOther now)]
    apply freshness_mono
    intro last rolled
    obtain ⟨last', isLast', le, most, least⟩ := older last (lastRolled_build_eq_some_iff.1 rolled)
    exact ⟨last', lastRolled_build_eq_some_iff.2 isLast',
      Instant.wholeDaysSince_le most least (Int.sub_le_sub_left le _)⟩

/-- The first of three places was rolled a second less than two days ago, and a day earlier: it has
a full day more than none, and it had no more the second before.  The second place was rolled a day
before the first, and weighs no less. -/
theorem idle_weighs_freshness_threeRolls :
    let place (n : Nat) : PlaceId := ⟨.ofNat n⟩
    let roll (n : Nat) (day : Int) : Roll :=
      ⟨default, default, place n, default, .ofSeconds (day * 86400)⟩
    let rolls := [roll 0 1, roll 1 0, roll 0 0]
    let places := [place 0, place 1, place 2]
    let before : Instant := .ofSeconds (3 * 86400 - 2)
    let now : Instant := .ofSeconds (3 * 86400 - 1)
    let h := build rolls [] default Rules.standard
    places.length < 2 ^ 32 ∧ place 0 ∈ places ∧ h.activeBoosts (place 0) = [] ∧
      h.Weighs places now (place 0) 2 ∧
      (∀ k k', h.Weighs places before (place 0) k → h.Weighs places now (place 0) k' → k ≤ k') ∧
      ∀ k k', h.Weighs places now (place 1) k → h.Weighs places now (place 0) k' → k' ≤ k := by
  intro place roll rolls places before now h
  have few : places.length < 2 ^ 32 := by decide
  have idle (n : Nat) : h.activeBoosts (place n) = [] := rfl
  have isLast : IsLastRoll rolls (place 0) (.ofSeconds 86400) :=
    ⟨⟨roll 0 1, by decide, rfl, rfl⟩, by decide⟩
  have isLast' : IsLastRoll rolls (place 1) (.ofSeconds 0) :=
    ⟨⟨roll 1 0, by decide, rfl, rfl⟩, by decide⟩
  obtain ⟨⟨k, weighs, -, -, -, rolled⟩, -, -⟩ := idle_weighs_freshness Rules.standard rolls []
    default now places (place 0) few (by decide) (idle 0)
  obtain ⟨-, grows, -⟩ := idle_weighs_freshness Rules.standard rolls [] default before places
    (place 0) few (by decide) (idle 0)
  obtain ⟨-, -, older⟩ := idle_weighs_freshness Rules.standard rolls [] default now places
    (place 1) few (by decide) (idle 1)
  obtain ⟨days, rfl, least, most⟩ := rolled _ isLast
  have passed : (Instant.ofSeconds 86400).elapsed now = 172799 * 1000000000 := by decide
  rw [passed, Instant.dayLength] at least most
  obtain rfl : days = 1 := by omega
  refine ⟨few, by decide, idle 0, weighs, ?_, ?_⟩
  · refine grows [] default now (idle 0) (by decide) fun last is => ?_
    obtain rfl := is.unique isLast
    decide
  · refine older (place 0) (by decide) (idle 0) fun last is => ?_
    obtain rfl := is.unique isLast'
    exact ⟨_, isLast, by decide⟩

/-- A leap second that ends a day is not counted once the next day has begun.  A place that was rolled
in one is a full day old, and more, in the last second of the next day, also in a leap second there,
but less than that at the start of the day after: it weighs less then than before, and less than a
place rolled after it. -/
theorem not_older_weighs_more :
    let place (n : Nat) : PlaceId := ⟨.ofNat n⟩
    let roll (n : Nat) (t : Instant) : Roll := ⟨default, default, place n, default, t⟩
    let older : Instant := ⟨86399, 1500000000, by decide⟩
    let newer : Instant := ⟨86400, 100000000, by decide⟩
    let before : Instant := ⟨2 * 86400 - 1, 1600000000, by decide⟩
    let now : Instant := ⟨2 * 86400, 200000000, by decide⟩
    let rolls := [roll 0 older, roll 1 newer]
    let places := [place 0, place 1]
    let h := build rolls [] default Rules.standard
    (∀ n, h.activeBoosts (place n) = []) ∧
      IsLastRoll rolls (place 0) older ∧ IsLastRoll rolls (place 1) newer ∧
      older < newer ∧ before < now ∧ h.Weighs places before (place 0) 2 ∧
      h.Weighs places now (place 0) 1 ∧ h.Weighs places now (place 1) 2 := by
  intro place roll older newer before now rolls places h
  have few : places.length < 2 ^ 32 := by decide
  have idle (n : Nat) : h.activeBoosts (place n) = [] := rfl
  have isLast : IsLastRoll rolls (place 0) older :=
    ⟨⟨roll 0 older, by decide, rfl, rfl⟩, by decide⟩
  have isLast' : IsLastRoll rolls (place 1) newer :=
    ⟨⟨roll 1 newer, by decide, rfl, rfl⟩, by decide⟩
  have fresh : h.freshness places.length before (place 0) = 2 := by decide
  have stale : h.freshness places.length now (place 0) = 1 := by decide
  have fresh' : h.freshness places.length now (place 1) = 2 := by decide
  refine ⟨idle, isLast, isLast', by decide, by decide, ?_, ?_, ?_⟩
  · exact fresh ▸ weighs_freshness few (by decide) (idle 0) before
  · exact stale ▸ weighs_freshness few (by decide) (idle 0) now
  · exact fresh' ▸ weighs_freshness few (by decide) (idle 1) now

end History

end NoonDraw
