import Mathlib.Algebra.Ring.Nat
import Mathlib.Data.List.Induction
import NoonDraw.History
import NoonDraw.Proofs.ReplayOrder

/-!
# The quota

A boost costs its user a point, and so does a roll on a day on which the room has rolled before.
One more draw that is not older than the others costs nobody anything else
(`pointsSpent_concat_boost`, `pointsSpent_concat_roll`): it comes last on its day, so the roll that is
free stays the same.  So draws that are allowed as their rules say keep every user within the points
of every week (`WithinQuota.boost`, `WithinQuota.roll`).
-/

namespace NoonDraw

namespace Table

variable {κ α β : Type} [Key κ]

/-- The sum of a weight over all values. -/
def total (w : α → Nat) (t : Table κ α) : Nat := (t.values.map w).sum

theorem sum_put (w : α → Nat) (k : κ) (a : α) :
    ∀ {es : List (κ × α)}, es.Pairwise (fun a b => compare a.1 b.1 = .lt) →
      ((put k a es).map fun e => w e.2).sum + ((valueOf k es).map w).getD 0 =
        (es.map fun e => w e.2).sum + w a
  | [], _ => by simp [put, valueOf]
  | e :: es, ascending => by
    obtain ⟨first, rest⟩ := List.pairwise_cons.1 ascending
    unfold put valueOf
    split
    next before =>
      have missing : valueOf k es = none := valueOf_eq_none fun x hx => by
        rw [Std.TransCmp.lt_trans before (first x hx)]
        decide
      simp [before, missing]
      omega
    next same =>
      simp [same]
      omega
    next after =>
      have ih := sum_put w k a rest
      simp [after]
      omega

/-- The new total and the value replaced make up the old total and the new value. -/
theorem total_insert (w : α → Nat) (t : Table κ α) (k : κ) (a : α) :
    (t.insert k a).total w + ((t.get? k).map w).getD 0 = t.total w + w a := by
  simpa [total, values, insert, get?, Function.comp_def] using sum_put w k a t.ascending

theorem total_map (w : β → Nat) (f : α → β) (t : Table κ α) :
    (t.map fun _ a => f a).total w = t.total fun a => w (f a) := by
  simp [total, values, map, Function.comp_def]

/-- One more item goes to the end of its group. -/
theorem group_concat (key : α → κ) (xs : List α) (x : α) :
    group key (xs ++ [x]) =
      (group key xs).insert (key x) (((group key xs).get? (key x)).getD [] ++ [x]) := by
  simp [group]

/-- A group holds some of the items, in the order given. -/
theorem get?_group (key : α → κ) (xs : List α) {k : κ} {ys : List α}
    (found : (group key xs).get? k = some ys) : ys ≠ [] ∧ ys.Sublist xs := by
  induction xs using List.reverseRecOn generalizing ys with
  | nil => cases found
  | append_singleton xs x ih =>
    rw [group_concat, get?_insert] at found
    split at found
    next same =>
      obtain rfl := Option.some.inj found
      refine ⟨by simp, List.Sublist.append ?_ (List.Sublist.refl _)⟩
      cases old : (group key xs).get? (key x) with
      | none => simp
      | some zs =>
        rw [← Std.LawfulEqOrd.eq_of_compare same] at old
        exact (ih old).2
    next =>
      obtain ⟨nonempty, sub⟩ := ih found
      exact ⟨nonempty, sub.trans (List.sublist_append_left _ _)⟩

/-- A group is made of the items with its key. -/
theorem getD_get?_group [DecidableEq κ] (key : α → κ) (xs : List α) (k : κ) :
    ((group key xs).get? k).getD [] = xs.filter fun x => key x = k := by
  induction xs using List.reverseRecOn with
  | nil => rfl
  | append_singleton xs x ih =>
    rw [group_concat, get?_insert, List.filter_append]
    by_cases same : key x = k
    · subst same
      rw [ih]
      simp [Std.ReflOrd.compare_self]
    · have other : compare k (key x) ≠ .eq := fun eq => same (Std.LawfulEqOrd.eq_of_compare eq).symm
      simp [other, same, ih]

end Table

namespace History

variable {W : Type} {rolls : List Roll} {boosts : List Boost} {rules : Rules W} {t : Instant}
  {user : UserId}

/-- Whether an instant falls in the local week of another. -/
def inWeek (rules : Rules W) (t now : Instant) : Bool :=
  t.isoWeek rules.offset = now.isoWeek rules.offset

theorem inWeek_congr {now : Instant} (same : inWeek rules now t) (a : Instant) :
    inWeek rules a now = inWeek rules a t := by
  simp only [inWeek, decide_eq_true_eq] at same ⊢
  rw [same]

@[simp] theorem rules_build : (build rolls boosts t rules).rules = rules := rfl

/-! ### What is spent -/

theorem pointsLeft_nonneg_iff {h : History W} :
    0 ≤ h.pointsLeft user ↔ (h.pointsSpent user : Int) ≤ h.rules.weeklyPoints := by
  have least : leastPoints < 0 := by decide
  simp only [pointsLeft]
  omega

theorem pointsLeft_pos_iff {h : History W} :
    0 < h.pointsLeft user ↔ (h.pointsSpent user : Int) < h.rules.weeklyPoints := by
  have least : leastPoints < 0 := by decide
  simp only [pointsLeft]
  omega

/-- What a day's rolls cost a user. -/
def costOf (user : UserId) (day : List Roll) : Nat :=
  ((oldestFirst day).drop 1).countP fun r => r.user = user

/-- What a user has spent, by boosts and by rolls. -/
theorem pointsSpent_build (rolls : List Roll) (boosts : List Boost) (t : Instant) (rules : Rules W)
    (user : UserId) :
    (build rolls boosts t rules).pointsSpent user =
      (boosts.filter fun b => inWeek rules b.time t).countP (fun b => b.user = user) +
        (Table.group (fun r : Roll => r.time.localDay rules.offset)
          (rolls.filter fun r => inWeek rules r.time t)).total (costOf user) := by
  simp only [pointsSpent, rerolls, List.countP_flatMap, build, Function.comp_def]
  exact congrArg _ (Table.total_map _ oldestFirst _)

/-- What is spent in a week does not depend on the instant in it. -/
theorem pointsSpent_congr {now : Instant} (same : inWeek rules now t) :
    (build rolls boosts t rules).pointsSpent user =
      (build rolls boosts now rules).pointsSpent user := by
  simp only [pointsSpent_build, inWeek_congr same]

/-- A boost costs its user a point in its week, and nobody else. -/
theorem pointsSpent_concat_boost (rolls : List Roll) (boosts : List Boost) (b : Boost) (t : Instant)
    (rules : Rules W) (user : UserId) :
    (build rolls (boosts ++ [b]) t rules).pointsSpent user =
      (build rolls boosts t rules).pointsSpent user +
        if inWeek rules b.time t ∧ b.user = user then 1 else 0 := by
  rw [pointsSpent_build, pointsSpent_build, List.filter_append, List.countP_append]
  by_cases week : inWeek rules b.time t <;> by_cases own : b.user = user <;> simp [week, own]
  omega

/-- Rolls in order of time. -/
def Sorted (rolls : List Roll) : Prop := rolls.Pairwise fun a b => a.time ≤ b.time

theorem oldestFirst_of_sorted {rolls : List Roll} (sorted : Sorted rolls) :
    oldestFirst rolls = rolls :=
  List.mergeSort_of_pairwise (sorted.imp fun h => by simpa using h)

/-- One more roll costs its user a point, unless it is the first of its day. -/
theorem costOf_concat {day : List Roll} {r : Roll} (sorted : Sorted (day ++ [r])) (user : UserId) :
    costOf user (day ++ [r]) = costOf user day + if day ≠ [] ∧ r.user = user then 1 else 0 := by
  have before : Sorted day := (List.pairwise_append.1 sorted).1
  rw [costOf, costOf, oldestFirst_of_sorted sorted, oldestFirst_of_sorted before]
  cases day with
  | nil => simp
  | cons first rest => by_cases own : r.user = user <;> simp [own]

/-- A roll that is not older than the others costs its user a point in its week if the room has rolled
on its day, and nobody else. -/
theorem pointsSpent_concat_roll {r : Roll} (sorted : Sorted (rolls ++ [r])) (boosts : List Boost)
    (t : Instant) (rules : Rules W) (user : UserId) :
    (build (rolls ++ [r]) boosts t rules).pointsSpent user =
      (build rolls boosts t rules).pointsSpent user +
        if inWeek rules r.time t ∧ (build rolls boosts r.time rules).hasRolledOn r.time ∧
          r.user = user then 1 else 0 := by
  rw [pointsSpent_build, pointsSpent_build, List.filter_append, Nat.add_assoc]
  congr 1
  by_cases week : inWeek rules r.time t
  case neg => simp [week]
  have sameWeek : (rolls.filter fun a => inWeek rules a.time r.time) =
      rolls.filter fun a => inWeek rules a.time t := by simp only [inWeek_congr week]
  have rolled : (build rolls boosts r.time rules).hasRolledOn r.time =
      ((Table.group (fun a : Roll => a.time.localDay rules.offset)
        (rolls.filter fun a => inWeek rules a.time t)).get?
          (r.time.localDay rules.offset)).isSome := by
    rw [← sameWeek]
    simp only [hasRolledOn, build, Table.contains, Table.get?_map, Option.isSome_map]
    rfl
  have concat : (rolls.filter fun a => inWeek rules a.time t) ++
      [r].filter (fun a => inWeek rules a.time t) =
        (rolls.filter fun a => inWeek rules a.time t) ++ [r] := by simp [week]
  rw [concat, Table.group_concat, rolled]
  generalize hg : Table.group (fun a : Roll => a.time.localDay rules.offset)
    (rolls.filter fun a => inWeek rules a.time t) = groups
  have insert := Table.total_insert (costOf user) groups (r.time.localDay rules.offset)
    ((groups.get? (r.time.localDay rules.offset)).getD [] ++ [r])
  cases day : groups.get? (r.time.localDay rules.offset) with
  | none =>
    -- nobody has rolled on that day, and the first roll is free
    have free : costOf user [r] = 0 := by simp [costOf, oldestFirst]
    simp [day, free] at insert ⊢
    exact insert
  | some ys =>
    -- the roll comes last on its day, so the one that is free stays so
    obtain ⟨nonempty, sub⟩ := Table.get?_group _ _ (hg ▸ day)
    have inDay : Sorted (ys ++ [r]) :=
      sorted.sublist ((sub.trans List.filter_sublist).append (List.Sublist.refl _))
    have cost := costOf_concat inDay user
    simp only [day, Option.getD_some, Option.map_some] at insert
    simp only [week, Option.isSome_some, true_and, nonempty, ne_eq, not_false_eq_true,
      Option.getD_some] at cost ⊢
    omega

/-! ### Within the quota -/

/-- Whether no user is ever charged more points than a week has. -/
def WithinQuota (rules : Rules W) (rolls : List Roll) (boosts : List Boost) : Prop :=
  ∀ t user, 0 ≤ (build rolls boosts t rules).pointsLeft user

theorem withinQuota_nil (points : 0 ≤ rules.weeklyPoints) : WithinQuota rules [] [] := by
  intro t user
  rw [pointsLeft_nonneg_iff, pointsSpent_build]
  exact points

/-- One more draw keeps everybody within the quota if it costs at most its user, in its week, and has
a point to take whenever it costs one. -/
theorem WithinQuota.charge (within : WithinQuota rules rolls boosts) {rolls' : List Roll}
    {boosts' : List Boost} {now : Instant} {P : Prop} [Decidable P]
    (spent : ∀ t user', (build rolls' boosts' t rules).pointsSpent user' =
      (build rolls boosts t rules).pointsSpent user' +
        if inWeek rules now t ∧ P ∧ user = user' then 1 else 0)
    (left : P → 0 < (build rolls boosts now rules).pointsLeft user) :
    WithinQuota rules rolls' boosts' := by
  intro t user'
  have before := pointsLeft_nonneg_iff.1 (within t user')
  rw [pointsLeft_nonneg_iff, spent]
  split
  next charged =>
    obtain ⟨week, isCharged, rfl⟩ := charged
    have enough := pointsLeft_pos_iff.1 (left isCharged)
    rw [pointsSpent_congr week]
    simp only [rules_build] at enough ⊢
    omega
  next => exact before

/-- A boost that is allowed keeps everybody within the quota. -/
theorem WithinQuota.boost (within : WithinQuota rules rolls boosts) {b : Boost}
    (allowed : (build rolls boosts b.time rules).mayBoost b.user) :
    WithinQuota rules rolls (boosts ++ [b]) := by
  refine within.charge (P := True) (fun t user => ?_) fun _ => of_decide_eq_true allowed
  simpa using pointsSpent_concat_boost rolls boosts b t rules user

/-- A roll that is allowed and not older than the others keeps everybody within the quota. -/
theorem WithinQuota.roll (within : WithinQuota rules rolls boosts) {r : Roll}
    (sorted : Sorted (rolls ++ [r]))
    (allowed : (build rolls boosts r.time rules).mayRoll r.user r.time) :
    WithinQuota rules (rolls ++ [r]) boosts := by
  refine within.charge (fun t user => pointsSpent_concat_roll sorted boosts t rules user) ?_
  intro rolled
  simpa [mayRoll, rolled] using allowed

end History

end NoonDraw
