import NoonDraw.Proofs.Charges
import NoonDraw.Proofs.DateTimes

/-!
# Weeks and days of the local clock

Points are counted by weeks that are numbered, and free rolls by days that are numbered.  Here the
numbers are tied to the calendar.  Weeks are those of ISO 8601 (`IsoWeek.ofDay_eq_iff`), and two days
have the same number of year and week iff they lie between the same Monday and Sunday, also where the
year changes in between (`IsoWeek.ofDay_congr_iff`).  A day begins at its local midnight and lasts to
the next (`Instant.midnight_le_iff`).

So the budgets of a room are reset whenever the local clock comes to a Monday, and the free roll
whenever it comes to a new date, and at no other time (`History.quota_resets_at_midnight`).
-/

namespace NoonDraw

/-! ### Weeks from Monday to Sunday -/

namespace Day

/-- How many days a day is after a Monday.  Day 0 is a Thursday. -/
def sinceMonday (d : Day) : Int := (d.number + 3) % 7

/-- Whether a day is a Monday. -/
def IsMonday (d : Day) : Prop := d.sinceMonday = 0

/-- The Monday on which the week of a day begins. -/
def monday (d : Day) : Day := ⟨d.number - d.sinceMonday⟩

/-- Whether two days lie between a Monday and the Sunday after it. -/
def SameWeek (a b : Day) : Prop :=
  ∃ m : Day, m.IsMonday ∧ (m.number ≤ a.number ∧ a.number ≤ m.number + 6) ∧
    (m.number ≤ b.number ∧ b.number ≤ m.number + 6)

theorem isMonday_monday (d : Day) : d.monday.IsMonday := by
  simp only [IsMonday, monday, sinceMonday]
  omega

theorem monday_le (d : Day) : d.monday.number ≤ d.number ∧ d.number ≤ d.monday.number + 6 := by
  simp only [monday, sinceMonday]
  omega

/-- Only the Monday of its week is a Monday and less than a week before a day. -/
theorem eq_monday {m d : Day} (isMonday : m.IsMonday) (le : m.number ≤ d.number)
    (lt : d.number ≤ m.number + 6) : m = d.monday := by
  obtain ⟨n⟩ := m
  simp only [IsMonday, monday, sinceMonday, Day.mk.injEq] at *
  omega

theorem sameWeek_iff {a b : Day} : a.SameWeek b ↔ a.monday = b.monday := by
  constructor
  · rintro ⟨m, isMonday, ⟨leA, ltA⟩, leB, ltB⟩
    rw [← eq_monday isMonday leA ltA, ← eq_monday isMonday leB ltB]
  · intro same
    exact ⟨a.monday, a.isMonday_monday, a.monday_le, same ▸ b.monday_le⟩

instance (a b : Day) : Decidable (a.SameWeek b) := decidable_of_iff _ sameWeek_iff.symm

/-- 6 September 2021 is a Monday. -/
example : (Date.toDay? ⟨2021, 9, 6⟩).map sinceMonday = some 0 := by decide

end Day

namespace IsoWeek

open Calendar

/-- The Thursday of a week comes three days after its Monday. -/
theorem thursday_eq (d : Day) : thursday d = d.monday.number + 3 := rfl

/-- Weeks are numbered as in ISO 8601: the first week of a year is the one with 4 January, the others
follow it week by week, and each belongs to the year that its Thursday is in. -/
theorem ofDay_eq_iff {d : Day} {w : IsoWeek} :
    ofDay d = w ↔ yearOf (d.monday.number + 3) = w.year ∧
      d.monday.number = (Day.mk (yearStart w.year + 3)).monday.number + 7 * (w.number - 1) := by
  obtain ⟨year, number⟩ := w
  have first := yearStart_yearOf_le (d.monday.number + 3)
  rw [ofDay, thursday_eq, IsoWeek.mk.injEq]
  refine and_congr_right fun isYear => ?_
  rw [isYear] at first ⊢
  simp only [Day.monday, Day.sinceMonday] at first ⊢
  omega

/-- Two days have the same number of year and week iff they lie between the same Monday and Sunday. -/
theorem ofDay_congr_iff {a b : Day} : ofDay a = ofDay b ↔ a.SameWeek b := by
  rw [Day.sameWeek_iff]
  constructor
  · intro same
    obtain ⟨-, mondayA⟩ := ofDay_eq_iff.1 (rfl : ofDay a = ofDay a)
    obtain ⟨-, mondayB⟩ := ofDay_eq_iff.1 (rfl : ofDay b = ofDay b)
    rw [same, ← mondayB] at mondayA
    exact congrArg Day.mk mondayA
  · intro same
    rw [ofDay, ofDay, thursday_eq, thursday_eq, same]

/-- The last days of 2020 and the first of 2021 are in the week 53 of 2020. -/
example : (Date.toDay? ⟨2020, 12, 28⟩).map ofDay = some ⟨2020, 53⟩ ∧
    (Date.toDay? ⟨2021, 1, 3⟩).map ofDay = some ⟨2020, 53⟩ ∧
    (Date.toDay? ⟨2021, 1, 4⟩).map ofDay = some ⟨2021, 1⟩ := by decide

end IsoWeek

/-! ### Midnights -/

/-- The instant at which a day begins on the local clock. -/
def Day.midnight (offset : UtcOffset) (d : Day) : Instant :=
  .ofSeconds (86400 * d.number - offset.seconds)

namespace Instant

variable {offset : UtcOffset} {a b t : Instant} {d : Day}

/-- A day has begun at all instants of it and of later days. -/
theorem midnight_le_iff : d.midnight offset ≤ t ↔ d.number ≤ (t.localDay offset).number := by
  have := t.nanos_lt
  simp only [le_def, rank, Day.midnight, ofSeconds, localDay]
  omega

/-- The date that the local calendar shows. -/
def localDate (offset : UtcOffset) (t : Instant) : Date := .ofDay (t.localDay offset)

theorem localDate_eq_iff :
    a.localDate offset = b.localDate offset ↔ a.localDay offset = b.localDay offset := by
  refine ⟨fun same => ?_, congrArg Date.ofDay⟩
  have read := congrArg Date.toDay? same
  rwa [localDate, localDate, Date.toDay?_ofDay, Date.toDay?_ofDay, Option.some.injEq] at read

/-- The date is the same as long as the local clock does not come to midnight. -/
theorem localDate_eq_iff_midnight :
    a.localDate offset = b.localDate offset ↔
      ∀ d : Day, d.midnight offset ≤ a ↔ d.midnight offset ≤ b := by
  rw [localDate_eq_iff]
  simp only [midnight_le_iff]
  constructor
  · rintro same d
    rw [same]
  · intro same
    have leB := (same (a.localDay offset)).1 le_rfl
    have leA := (same (b.localDay offset)).2 le_rfl
    exact congrArg Day.mk (le_antisymm leB leA)

/-- The week is the same as long as the local clock does not come to the midnight of a Monday. -/
theorem sameWeek_iff_midnight :
    (a.localDay offset).SameWeek (b.localDay offset) ↔
      ∀ m : Day, m.IsMonday → (m.midnight offset ≤ a ↔ m.midnight offset ≤ b) := by
  simp only [midnight_le_iff]
  constructor
  · rintro ⟨m, isMonday, ⟨leA, ltA⟩, leB, ltB⟩ n isMonday'
    simp only [Day.IsMonday, Day.sinceMonday] at isMonday isMonday'
    omega
  · intro same
    -- each of the two has reached the Monday of the other
    have leB := (same _ (Day.isMonday_monday _)).1 (a.localDay offset).monday_le.1
    have leA := (same _ (Day.isMonday_monday _)).2 (b.localDay offset).monday_le.1
    rw [Day.sameWeek_iff]
    simp only [Day.monday, Day.sinceMonday, Day.mk.injEq] at leA leB ⊢
    omega

end Instant

/-! ### The quota -/

namespace History

variable {W : Type} {rules : Rules W} {t now : Instant}

theorem inWeek_iff :
    inWeek rules t now ↔ (t.localDay rules.offset).SameWeek (now.localDay rules.offset) := by
  rw [inWeek, decide_eq_true_iff]
  exact IsoWeek.ofDay_congr_iff

/-- One more roll is a roll of its own date. -/
theorem hasRolledOn_insert (before after : List Roll) (roll : Roll) (boosts : List Boost)
    (now : Instant) (rules : Rules W) :
    (build (before ++ roll :: after) boosts now rules).hasRolledOn now =
      (decide (roll.time.localDate rules.offset = now.localDate rules.offset) ||
        (build (before ++ after) boosts now rules).hasRolledOn now) := by
  simp only [hasRolledOn_build, rollsOn, List.filter_append, List.filter_cons,
    Instant.localDate_eq_iff]
  split <;> simp_all

/-- A boost is charged to its user in the week from Monday to Sunday that its local date is in, and a
roll uses up the free roll of its local date.  The week lasts until the local clock comes to the
midnight of a Monday, and the date until it comes to any midnight. -/
theorem quota_resets_at_midnight (rules : Rules W) (now : Instant) :
    (∀ rolls before after (boost : Boost) user,
      let h := build rolls (before ++ after) now rules
      let h' := build rolls (before ++ boost :: after) now rules
      let charged := (boost.time.localDay rules.offset).SameWeek (now.localDay rules.offset) ∧
        boost.user = user
      h'.pointsSpent user = (h.pointsSpent user + if charged then 1 else 0) ∧
        h'.pointsLeft user =
          if charged then max leastPoints (h.pointsLeft user - 1) else h.pointsLeft user) ∧
    (∀ before after (roll : Roll) boosts user,
      let h := build (before ++ after) boosts now rules
      let h' := build (before ++ roll :: after) boosts now rules
      let rolled := roll.time.localDate rules.offset = now.localDate rules.offset ∨ h.hasRolledOn now
      (h'.hasRolledOn now ↔ rolled) ∧
        (h'.mayRoll user now ↔ (rolled → 0 < h'.pointsLeft user))) ∧
    ∀ t : Instant,
      ((t.localDay rules.offset).SameWeek (now.localDay rules.offset) ↔
        ∀ m : Day, m.IsMonday → (m.midnight rules.offset ≤ t ↔ m.midnight rules.offset ≤ now)) ∧
      (t.localDate rules.offset = now.localDate rules.offset ↔
        ∀ d : Day, d.midnight rules.offset ≤ t ↔ d.midnight rules.offset ≤ now) := by
  refine ⟨fun rolls before after boost user => ?_, fun before after roll boosts user => ?_,
    fun t => ⟨Instant.sameWeek_iff_midnight, Instant.localDate_eq_iff_midnight⟩⟩
  · have spent := pointsSpent_insert_boost rolls before after boost now rules user
    simp only [inWeek_iff] at spent
    exact ⟨spent, pointsLeft_charged spent rfl⟩
  · have rolled := hasRolledOn_insert before after roll boosts now rules
    refine ⟨by simp [rolled], ?_⟩
    simp only [mayRoll, rolled]
    by_cases sameDate : roll.time.localDate rules.offset = now.localDate rules.offset <;>
      cases (build (before ++ after) boosts now rules).hasRolledOn now <;> simp [sameDate]

end History

end NoonDraw
