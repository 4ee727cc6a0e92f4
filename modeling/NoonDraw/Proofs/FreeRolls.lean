import Mathlib.Algebra.BigOperators.Finprod
import NoonDraw.Proofs.Charges

/-!
# Free rolls

Of the rolls of a room on a local day one is free: the earliest, and of several that are as early the
one that was given first.  Every other roll has one that goes before it on its day
(`History.Precedes`), and it is a reroll, charged to its user.

The history of a room holds the rolls of a week sorted into days, and charges all but the first of
each day.  These are the rerolls of the week (`History.rerolls_build_perm`).  So everybody has spent
as many points as they have boosts and rerolls in the week (`History.pointsSpent_eq`), and all users
together as many as there are boosts and rolls, less the days on which the room has rolled
(`History.points_conserved`).
-/

namespace NoonDraw

/-! ### Lists sorted into groups -/

/-- In a list in strict order, the items behind the first are those that another one precedes. -/
theorem drop_one_eq_filter {α : Type} {R : α → α → Prop} [DecidableRel R]
    (asymm : ∀ a b, R a b → ¬ R b a) {xs : List α} (sorted : xs.Pairwise R) :
    xs.drop 1 = xs.filter fun b => decide (∃ a ∈ xs, R a b) := by
  cases xs with
  | nil => rfl
  | cons first rest =>
    have before := (List.pairwise_cons.1 sorted).1
    have isFirst : ¬ ∃ a ∈ first :: rest, R a first := by
      rintro ⟨a, ha, precedes⟩
      rcases List.mem_cons.1 ha with rfl | later
      · exact asymm a a precedes precedes
      · exact asymm a first precedes (before a later)
    have others : ∀ b ∈ rest, decide (∃ a ∈ first :: rest, R a b) = true := fun b hb =>
      decide_eq_true ⟨first, List.mem_cons_self, before b hb⟩
    rw [List.filter_cons_of_neg (by simpa using isFirst), List.filter_eq_self.2 others]
    rfl

/-- The items of all groups are the items, if every item has the key of one group. -/
theorem flatMap_filter_perm {α κ : Type} [DecidableEq κ] (key : α → κ) :
    ∀ {keys : List κ} {xs : List α}, keys.Nodup → (∀ x ∈ xs, key x ∈ keys) →
      (keys.flatMap fun k => xs.filter fun x => key x = k).Perm xs
  | [], [], _, _ => .nil
  | [], x :: xs, _, covered => nomatch covered x List.mem_cons_self
  | k :: keys, xs, distinct, covered => by
    obtain ⟨new, rest⟩ := List.nodup_cons.1 distinct
    let others := xs.filter fun x => !decide (key x = k)
    have inKeys : ∀ x ∈ others, key x ∈ keys := by
      intro x hx
      obtain ⟨hx, other⟩ := List.mem_filter.1 hx
      exact (List.mem_cons.1 (covered x hx)).resolve_left (by simpa using other)
    have sameGroups : (keys.flatMap fun j => xs.filter fun x => key x = j) =
        keys.flatMap fun j => others.filter fun x => key x = j := by
      refine List.flatMap_congr fun j hj => ?_
      rw [List.filter_filter]
      refine List.filter_congr fun x _ => ?_
      have apart : j ≠ k := fun same => new (same ▸ hj)
      by_cases own : key x = j <;> simp [own, apart]
    rw [List.flatMap_cons, sameGroups]
    exact ((flatMap_filter_perm key rest inKeys).append_left _).trans
      (List.filter_append_perm (fun x => decide (key x = k)) xs)

/-- Lists without their first items, and as many more as there are lists. -/
theorem length_flatMap_drop_one {α : Type} {groups : List (List α)} (some : ∀ g ∈ groups, g ≠ []) :
    (groups.flatMap fun g => g.drop 1).length + groups.length = groups.flatten.length := by
  induction groups with
  | nil => rfl
  | cons g groups ih =>
    obtain ⟨isSome, rest⟩ := List.forall_mem_cons.1 some
    have pos : 0 < g.length := List.length_pos_iff.2 isSome
    have ih := ih rest
    simp only [List.flatMap_cons, List.length_append, List.length_drop, List.length_cons,
      List.flatten_cons] at ih ⊢
    omega

namespace Table

variable {κ α : Type} [Key κ] [DecidableEq κ]

/-- The groups of a list, in the order of their keys. -/
theorem values_group (key : α → κ) (xs : List α) :
    (group key xs).values = (group key xs).keys.map fun k => xs.filter fun x => key x = k := by
  rw [values, keys, List.map_map]
  refine List.map_congr_left fun e he => ?_
  have found : (group key xs).get? e.1 = some e.2 := get?_eq_some_iff.2 he
  simp [← getD_get?_group, found]

/-- There is a group for every key that an item has, and for no other. -/
theorem mem_keys_group {key : α → κ} {xs : List α} {k : κ} :
    k ∈ (group key xs).keys ↔ ∃ x ∈ xs, key x = k := by
  rw [mem_keys_iff, get?_group_eq]
  split
  next none => simpa using List.filter_eq_nil_iff.1 none
  next some =>
    obtain ⟨x, hx⟩ := List.exists_mem_of_ne_nil _ some
    have found := List.mem_filter.1 hx
    simpa using ⟨x, found.1, of_decide_eq_true found.2⟩

end Table

namespace History

variable {W : Type} {rules : Rules W} {rolls : List Roll} {boosts : List Boost} {now : Instant}

/-! ### Which rolls are free -/

/-- Whether one roll of a list goes before another on their local day: it is earlier, or it is as
early and was given before it. -/
def Precedes (rules : Rules W) (rolls : List Roll) (i j : Fin rolls.length) : Prop :=
  rolls[i].time.localDay rules.offset = rolls[j].time.localDay rules.offset ∧
    (rolls[i].time < rolls[j].time ∨ rolls[i].time = rolls[j].time ∧ i < j)

instance (rules : Rules W) (rolls : List Roll) : DecidableRel (Precedes rules rolls) :=
  fun _ _ => inferInstanceAs (Decidable (_ ∧ (_ ∨ _ ∧ _)))

theorem Precedes.asymm {i j : Fin rolls.length} (before : Precedes rules rolls i j) :
    ¬ Precedes rules rolls j i := by
  rintro ⟨-, after⟩
  obtain ⟨-, before⟩ := before
  rw [Instant.lt_def] at before after
  rcases before with lt | ⟨same, lt⟩ <;> rcases after with gt | ⟨same', gt⟩
  · omega
  · rw [same'] at lt
    omega
  · rw [same] at gt
    omega
  · exact lt.asymm gt

/-- Whether a roll of a list is not the first of its local day. -/
def IsReroll (rules : Rules W) (rolls : List Roll) (j : Fin rolls.length) : Prop :=
  ∃ i, Precedes rules rolls i j

instance (rules : Rules W) (rolls : List Roll) : DecidablePred (IsReroll rules rolls) :=
  fun j => inferInstanceAs (Decidable (∃ i, Precedes rules rolls i j))

/-- The boosts of the local week of an instant. -/
def boostsIn (rules : Rules W) (boosts : List Boost) (now : Instant) : List Boost :=
  boosts.filter fun b => inWeek rules b.time now

/-- The rolls of the local week of an instant. -/
def rollsIn (rules : Rules W) (rolls : List Roll) (now : Instant) : List Roll :=
  rolls.filter fun r => inWeek rules r.time now

/-- The rerolls of the local week of an instant, in the order given. -/
def rerollsIn (rules : Rules W) (rolls : List Roll) (now : Instant) : List Roll :=
  ((List.finRange rolls.length).filter fun i =>
    inWeek rules rolls[i].time now && decide (IsReroll rules rolls i)).map fun i => rolls[i]

/-- How many boosts and rerolls of the local week of an instant are a user's. -/
def chargesIn (rules : Rules W) (rolls : List Roll) (boosts : List Boost) (now : Instant)
    (user : UserId) : Nat :=
  (boostsIn rules boosts now).countP (fun b => b.user = user) +
    (rerollsIn rules rolls now).countP fun r => r.user = user

/-- The local days of the week of an instant on which the room has rolled. -/
def daysRolled (rules : Rules W) (rolls : List Roll) (now : Instant) : Finset Day :=
  ((rollsIn rules rolls now).map fun r => r.time.localDay rules.offset).toFinset

/-- The positions of the rolls of a day. -/
def placesOn (rules : Rules W) (rolls : List Roll) (now : Instant) : List (Fin rolls.length) :=
  (List.finRange rolls.length).filter fun i =>
    rolls[i].time.localDay rules.offset = now.localDay rules.offset

/-- The positions of the rolls of a day, from the oldest roll on. -/
def placesByTime (rules : Rules W) (rolls : List Roll) (now : Instant) : List (Fin rolls.length) :=
  (placesOn rules rolls now).mergeSort fun i j => decide (rolls[i].time ≤ rolls[j].time)

theorem oldestFirst_rollsOn (rules : Rules W) (rolls : List Roll) (now : Instant) :
    oldestFirst (rollsOn rules rolls now) = (placesByTime rules rolls now).map fun i => rolls[i] := by
  rw [oldestFirst, rollsOn, filter_eq_map_finRange]
  exact (List.map_mergeSort (f := fun i : Fin rolls.length => rolls[i]) fun _ _ _ _ => rfl).symm

theorem mem_placesByTime {i : Fin rolls.length} :
    i ∈ placesByTime rules rolls now ↔
      rolls[i].time.localDay rules.offset = now.localDay rules.offset := by
  simp [placesByTime, placesOn]

/-- Sorted by time, the rolls of a day stand as they precede each other. -/
theorem pairwise_placesByTime : (placesByTime rules rolls now).Pairwise (Precedes rules rolls) := by
  have trans : ∀ i j k : Fin rolls.length, decide (rolls[i].time ≤ rolls[j].time) →
      decide (rolls[j].time ≤ rolls[k].time) → decide (rolls[i].time ≤ rolls[k].time) := by
    intro i j k hij hjk
    simp only [decide_eq_true_eq] at *
    exact Instant.le_trans hij hjk
  have total : ∀ i j : Fin rolls.length,
      (decide (rolls[i].time ≤ rolls[j].time) || decide (rolls[j].time ≤ rolls[i].time)) = true := by
    intro i j
    simp only [Bool.or_eq_true, decide_eq_true_eq, Instant.le_def]
    omega
  have sorted := List.pairwise_mergeSort trans total (placesOn rules rolls now)
  rw [List.pairwise_iff_forall_sublist] at sorted ⊢
  intro i j within
  have sameDay : rolls[i].time.localDay rules.offset = rolls[j].time.localDay rules.offset :=
    (mem_placesByTime.1 (within.subset (by simp))).trans
      (mem_placesByTime.1 (within.subset (by simp))).symm
  have le : rolls[i].time ≤ rolls[j].time := of_decide_eq_true (sorted within)
  refine ⟨sameDay, or_iff_not_imp_left.2 fun notLt => ?_⟩
  have same : rolls[i].time = rolls[j].time := Instant.le_antisymm le (Instant.not_lt.1 notLt)
  -- rolls of one instant stand as they were given
  let tied (k : Fin rolls.length) : Bool := rolls[k].time = rolls[j].time
  have stable : (placesByTime rules rolls now).filter tied = (placesOn rules rolls now).filter tied :=
    filter_mergeSort trans total (fun a b ha hb => by
      simp only [tied, decide_eq_true_eq] at ha hb ⊢
      rw [ha, hb]
      exact Instant.le_refl _) _
  have given : ((placesOn rules rolls now).filter tied).Pairwise (· < ·) :=
    (List.pairwise_lt_finRange _).sublist (List.filter_sublist.trans List.filter_sublist)
  rw [← stable, List.pairwise_filter, List.pairwise_iff_forall_sublist] at given
  exact ⟨same, given within (decide_eq_true same) (decide_eq_true rfl)⟩

/-- The rolls of a day behind the oldest are its rerolls. -/
theorem drop_one_oldestFirst_perm (rules : Rules W) (rolls : List Roll) (now : Instant) :
    ((oldestFirst (rollsOn rules rolls now)).drop 1).Perm
      (((placesOn rules rolls now).filter fun i => decide (IsReroll rules rolls i)).map
        fun i => rolls[i]) := by
  have rerolls : (placesByTime rules rolls now).drop 1 =
      (placesByTime rules rolls now).filter fun i => decide (IsReroll rules rolls i) := by
    rw [drop_one_eq_filter (fun _ _ => Precedes.asymm) pairwise_placesByTime]
    refine List.filter_congr fun j hj => decide_eq_decide.2 ?_
    constructor
    · rintro ⟨i, -, before⟩
      exact ⟨i, before⟩
    · rintro ⟨i, before⟩
      exact ⟨i, mem_placesByTime.2 (before.1.trans (mem_placesByTime.1 hj)), before⟩
  rw [oldestFirst_rollsOn, ← List.map_drop, rerolls]
  exact ((List.mergeSort_perm _ _).filter _).map _

/-- On a day on which the room has rolled, one roll is free: it precedes all others. -/
theorem exists_free_roll {d : Day} (rolled : d ∈ daysRolled rules rolls now) :
    ∃ i : Fin rolls.length, rolls[i].time.localDay rules.offset = d ∧ ¬ IsReroll rules rolls i ∧
      ∀ j, rolls[j].time.localDay rules.offset = d → j ≠ i → Precedes rules rolls i j := by
  obtain ⟨r, hr, rfl⟩ := List.mem_map.1 (List.mem_toFinset.1 rolled)
  obtain ⟨k, hk, rfl⟩ := List.mem_iff_getElem.1 (List.mem_filter.1 hr).1
  have onDay : (⟨k, hk⟩ : Fin rolls.length) ∈ placesByTime rules rolls rolls[k].time :=
    mem_placesByTime.2 rfl
  cases day : placesByTime rules rolls rolls[k].time with
  | nil =>
    rw [day] at onDay
    cases onDay
  | cons first rest =>
    have sorted : (placesByTime rules rolls rolls[k].time).Pairwise (Precedes rules rolls) :=
      pairwise_placesByTime
    rw [day, List.pairwise_cons] at sorted
    have before (j : Fin rolls.length) (sameDay : rolls[j].time.localDay rules.offset =
        rolls[k].time.localDay rules.offset) (other : j ≠ first) : Precedes rules rolls first j := by
      have listed := mem_placesByTime.2 sameDay
      rw [day] at listed
      exact sorted.1 j ((List.mem_cons.1 listed).resolve_left other)
    have isFirst : rolls[first].time.localDay rules.offset = rolls[k].time.localDay rules.offset :=
      mem_placesByTime.1 (day ▸ List.mem_cons_self)
    refine ⟨first, isFirst, ?_, before⟩
    rintro ⟨j, precedes⟩
    by_cases other : j = first
    · subst other
      exact precedes.asymm precedes
    · exact precedes.asymm (before j (precedes.1.trans isFirst) other)

/-! ### What is charged -/

/-- The rolls of the week of a history, day by day. -/
theorem values_weekRolls (rolls : List Roll) (boosts : List Boost) (now : Instant)
    (rules : Rules W) :
    (build rolls boosts now rules).weekRolls.values =
      (Table.group (fun r : Roll => r.time.localDay rules.offset) (rollsIn rules rolls now)).keys.map
        fun d => oldestFirst ((rollsIn rules rolls now).filter fun r =>
          r.time.localDay rules.offset = d) := by
  have values : (build rolls boosts now rules).weekRolls.values =
      (Table.group (fun r : Roll => r.time.localDay rules.offset)
        (rollsIn rules rolls now)).values.map oldestFirst := by
    simp [build, Table.values, Table.map, rollsIn, inWeek]
  rw [values, Table.values_group, List.map_map]
  rfl

/-- The history charges the rerolls of its week. -/
theorem rerolls_build_perm (rolls : List Roll) (boosts : List Boost) (now : Instant)
    (rules : Rules W) :
    (build rolls boosts now rules).rerolls.Perm (rerollsIn rules rolls now) := by
  let days := (Table.group (fun r : Roll => r.time.localDay rules.offset)
    (rollsIn rules rolls now)).keys
  let places := (List.finRange rolls.length).filter fun i =>
    inWeek rules rolls[i].time now && decide (IsReroll rules rolls i)
  have ofDay : ∀ d ∈ days,
      ((oldestFirst ((rollsIn rules rolls now).filter fun r =>
        r.time.localDay rules.offset = d)).drop 1).Perm
      ((places.filter fun i => rolls[i].time.localDay rules.offset = d).map
        fun i => rolls[i]) := by
    intro d hd
    obtain ⟨r, hr, rfl⟩ := Table.mem_keys_group.1 hd
    have week : inWeek rules r.time now := (List.mem_filter.1 hr).2
    rw [rollsIn, filter_week_day week]
    refine (drop_one_oldestFirst_perm rules rolls r.time).trans (.of_eq (congrArg (List.map _) ?_))
    rw [placesOn, List.filter_filter, List.filter_filter]
    refine List.filter_congr fun i _ => ?_
    by_cases same : rolls[i].time.localDay rules.offset = r.time.localDay rules.offset
    · simp only [same, inWeek_of_localDay same, week, decide_true, Bool.and_true, Bool.true_and]
    · simp only [same, decide_false, Bool.and_false, Bool.false_and]
  have covered : ∀ i ∈ places, rolls[i].time.localDay rules.offset ∈ days := by
    intro i hi
    have week := (Bool.and_eq_true_iff.1 (List.mem_filter.1 hi).2).1
    exact Table.mem_keys_group.2 ⟨rolls[i], List.mem_filter.2 ⟨List.getElem_mem _, week⟩, rfl⟩
  rw [rerolls, values_weekRolls, List.flatMap_map]
  refine (List.Perm.flatMap_left _ ofDay).trans ?_
  rw [← List.map_flatMap]
  exact (flatMap_filter_perm _ (Table.nodup_keys _) covered).map _

/-- Of the rolls of a week all are rerolls but one for each day. -/
theorem length_rerollsIn (rules : Rules W) (rolls : List Roll) (now : Instant) :
    (rerollsIn rules rolls now).length + (daysRolled rules rolls now).card =
      (rollsIn rules rolls now).length := by
  let days := (Table.group (fun r : Roll => r.time.localDay rules.offset)
    (rollsIn rules rolls now)).keys
  have sameDays : daysRolled rules rolls now = days.toFinset := by
    ext d
    simp [daysRolled, days, Table.mem_keys_group]
  have rolled : ∀ g ∈ (build rolls [] now rules).weekRolls.values, g ≠ [] := by
    intro g hg
    rw [values_weekRolls] at hg
    obtain ⟨d, hd, rfl⟩ := List.mem_map.1 hg
    obtain ⟨r, hr, rfl⟩ := Table.mem_keys_group.1 hd
    refine List.ne_nil_of_mem (a := r) ?_
    rw [oldestFirst, List.mem_mergeSort]
    exact List.mem_filter.2 ⟨hr, decide_eq_true rfl⟩
  have all : (build rolls [] now rules).weekRolls.values.flatten.Perm (rollsIn rules rolls now) := by
    rw [values_weekRolls, ← List.flatMap_def]
    exact (List.Perm.flatMap_left _ fun d _ => List.mergeSort_perm _ _).trans
      (flatMap_filter_perm _ (Table.nodup_keys _) fun r hr => Table.mem_keys_group.2 ⟨r, hr, rfl⟩)
  have count : (build rolls [] now rules).weekRolls.values.length = days.length := by
    rw [values_weekRolls, List.length_map]
  rw [← (rerolls_build_perm rolls [] now rules).length_eq, sameDays,
    List.toFinset_card_of_nodup (Table.nodup_keys _), ← count, ← all.length_eq]
  exact length_flatMap_drop_one rolled

/-- A user has spent a point for each boost and each reroll in the week. -/
theorem pointsSpent_eq (rolls : List Roll) (boosts : List Boost) (now : Instant) (rules : Rules W)
    (user : UserId) :
    (build rolls boosts now rules).pointsSpent user = chargesIn rules rolls boosts now user := by
  rw [pointsSpent, (rerolls_build_perm rolls boosts now rules).countP_eq]
  rfl

/-- Nobody spends more points than there are draws. -/
theorem pointsSpent_le (rolls : List Roll) (boosts : List Boost) (now : Instant) (rules : Rules W)
    (user : UserId) :
    (build rolls boosts now rules).pointsSpent user ≤ rolls.length + boosts.length := by
  have boosted : (boostsIn rules boosts now).length ≤ boosts.length := List.length_filter_le _ _
  have rolled : (rollsIn rules rolls now).length ≤ rolls.length := List.length_filter_le _ _
  have rerolled := length_rerollsIn rules rolls now
  have own := List.countP_le_length (p := fun b : Boost => decide (b.user = user))
    (l := boostsIn rules boosts now)
  have own' := List.countP_le_length (p := fun r : Roll => decide (r.user = user))
    (l := rerollsIn rules rolls now)
  rw [pointsSpent_eq, chargesIn]
  omega

/-- The count of points left does not stop at the least value before `2 ^ 63` points are spent. -/
theorem weeklyPoints_sub_pointsLeft {h : History W} {user : UserId}
    (points : 0 ≤ h.rules.weeklyPoints) (few : h.pointsSpent user < 2 ^ 63) :
    h.rules.weeklyPoints - h.pointsLeft user = h.pointsSpent user := by
  have least : leastPoints = -2 ^ 63 := by decide
  simp only [pointsLeft, least]
  omega

/-- Items counted by user, over all users that have any, are all items. -/
theorem sum_countP_user {α : Type} (user : α → UserId) {users : Finset UserId} {xs : List α}
    (known : ∀ x ∈ xs, user x ∈ users) :
    ∑ u ∈ users, xs.countP (fun x => user x = u) = xs.length := by
  have total := Multiset.sum_count_eq_card (s := users) (m := (xs.map user : Multiset UserId))
    (by simpa using known)
  simpa [List.count, List.countP_map, Function.comp_def, beq_eq_decide] using total

/-- What all users have spent together. -/
theorem finsum_pointsSpent (rolls : List Roll) (boosts : List Boost) (now : Instant)
    (rules : Rules W) :
    ∑ᶠ user, ((build rolls boosts now rules).pointsSpent user : Int) =
      (boostsIn rules boosts now).length + (rerollsIn rules rolls now).length := by
  let users := ((boostsIn rules boosts now).map Boost.user ++
    (rerollsIn rules rolls now).map Roll.user).toFinset
  have boosters : ∀ b ∈ boostsIn rules boosts now, b.user ∈ users := fun b hb =>
    List.mem_toFinset.2 (List.mem_append_left _ (List.mem_map_of_mem hb))
  have rollers : ∀ r ∈ rerollsIn rules rolls now, r.user ∈ users := fun r hr =>
    List.mem_toFinset.2 (List.mem_append_right _ (List.mem_map_of_mem hr))
  have onlyUsers : Function.support
      (fun user => ((build rolls boosts now rules).pointsSpent user : Int)) ⊆ users := by
    intro user some
    by_contra none
    refine some (Int.natCast_eq_zero.2 ?_)
    rw [pointsSpent_eq, chargesIn, Nat.add_eq_zero_iff, List.countP_eq_zero, List.countP_eq_zero]
    constructor
    · exact fun b hb => by simpa using fun same : b.user = user => none (same ▸ boosters b hb)
    · exact fun r hr => by simpa using fun same : r.user = user => none (same ▸ rollers r hr)
  have total : ∑ user ∈ users, (build rolls boosts now rules).pointsSpent user =
      (boostsIn rules boosts now).length + (rerollsIn rules rolls now).length := by
    simp only [pointsSpent_eq, chargesIn, Finset.sum_add_distrib]
    rw [sum_countP_user _ boosters, sum_countP_user _ rollers]
  rw [finsum_eq_sum_of_support_subset _ onlyUsers]
  exact_mod_cast total

/-- All users together have spent as many points as there are boosts and rolls in the week, less the
days of it on which the room has rolled.  Everybody has spent a point for each of their boosts and
each of their rerolls, which are the rolls that are charged.  On each of those days the one roll that
is not charged is the earliest, and of several that are as early the one given first.

A count of points has 64 bits; more draws than it can count do not fit in memory. -/
theorem points_conserved (rolls : List Roll) (boosts : List Boost) (now : Instant) (rules : Rules W)
    (points : 0 ≤ rules.weeklyPoints) (held : rolls.length + boosts.length < 2 ^ 63) :
    let h := build rolls boosts now rules
    (∑ᶠ user, (rules.weeklyPoints - h.pointsLeft user) =
      ((boostsIn rules boosts now).length + (rollsIn rules rolls now).length -
        (daysRolled rules rolls now).card : Int)) ∧
    (∀ user, rules.weeklyPoints - h.pointsLeft user = chargesIn rules rolls boosts now user) ∧
    h.rerolls.Perm (rerollsIn rules rolls now) ∧
    ∀ d ∈ daysRolled rules rolls now,
      ∃ i : Fin rolls.length, rolls[i].time.localDay rules.offset = d ∧ ¬ IsReroll rules rolls i ∧
        ∀ j, rolls[j].time.localDay rules.offset = d → j ≠ i → Precedes rules rolls i j := by
  intro h
  have spent (user : UserId) : rules.weeklyPoints - h.pointsLeft user = h.pointsSpent user :=
    weeklyPoints_sub_pointsLeft points ((pointsSpent_le rolls boosts now rules user).trans_lt held)
  refine ⟨?_, fun user => ?_, rerolls_build_perm rolls boosts now rules, fun d => exists_free_roll⟩
  · have free := length_rerollsIn rules rolls now
    rw [finsum_congr spent, finsum_pointsSpent]
    omega
  · rw [spent, pointsSpent_eq]

/-- Three rolls of one day, the first of them the latest and the other two of one instant, and one of
the next day. -/
def fourRolls : List Roll :=
  [{ id := ⟨.ofNat 1⟩, user := ⟨"bert"⟩, place := default, room := default, time := .ofSeconds 3600 },
    { id := ⟨.ofNat 2⟩, user := ⟨"anna"⟩, place := default, room := default, time := .ofSeconds 60 },
    { id := ⟨.ofNat 3⟩, user := ⟨"carl"⟩, place := default, room := default, time := .ofSeconds 60 },
    { id := ⟨.ofNat 4⟩, user := ⟨"carl"⟩, place := default, room := default,
      time := .ofSeconds 90000 }]

/-- A boost of the first day. -/
def oneBoost : List Boost :=
  [{ id := ⟨.ofNat 5⟩, user := ⟨"bert"⟩, place := default, room := default, time := .ofSeconds 120 }]

/-- Bert pays for his roll and his boost, and Carl for his roll that was given second. -/
theorem points_conserved_fourRolls :
    let h := build fourRolls oneBoost default Rules.standard
    0 ≤ Rules.standard.weeklyPoints ∧ fourRolls.length + oneBoost.length < 2 ^ 63 ∧
      ∑ᶠ user, (Rules.standard.weeklyPoints - h.pointsLeft user) = 3 ∧
      h.rerolls.Perm (rerollsIn Rules.standard fourRolls default) ∧
      (rerollsIn Rules.standard fourRolls default).map Roll.user = [⟨"bert"⟩, ⟨"carl"⟩] := by
  intro h
  have held : fourRolls.length + oneBoost.length < 2 ^ 63 := by decide
  have boosted : (boostsIn Rules.standard oneBoost default).length = 1 := by decide +kernel
  have rolled : (rollsIn Rules.standard fourRolls default).length = 4 := by decide +kernel
  have days : (daysRolled Rules.standard fourRolls default).card = 2 := by decide +kernel
  obtain ⟨total, -, charged, -⟩ :=
    points_conserved fourRolls oneBoost default Rules.standard (by decide) held
  refine ⟨by decide, held, ?_, charged, by decide +kernel⟩
  rw [total, boosted, rolled, days]
  rfl

end History

end NoonDraw
