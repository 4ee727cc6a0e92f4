import NoonDraw.Proofs.FreeRolls
import NoonDraw.Proofs.Freshness

/-!
# History in another order

What a history tells does not depend on the order in which rolls and boosts are given, apart from rolls
of one instant: of the rolls of a day that are as early, the one given first is free.  Boosts may be
given in any order, and rolls in any order in which those of one instant stand as they did
(`History.build_reorder`).

Two histories tell the same if they differ only in the order of their boosts (`History.Alike`).  That
the histories of reordered lists do so has one reason: lists that hold the same rolls at every instant
have the same rolls from the oldest on (`Instant.mergeSort_le_congr`).
-/

namespace NoonDraw

namespace Instant

/-- The latest of some instants does not depend on their order. -/
theorem max?_perm {times times' : List Instant} (perm : times.Perm times') :
    times.max? = times'.max? := by
  apply Option.ext
  intro latest
  simp only [List.max?_eq_some_iff, perm.mem_iff]

end Instant

namespace History

variable {W : Type} {h h' : History W} {rolls rolls' : List Roll} {boosts boosts' : List Boost}
  {rules : Rules W} {now t : Instant} {place : PlaceId} {user : UserId}

/-! ### Histories alike -/

/-- Whether two histories differ only in the order of their boosts. -/
structure Alike (h h' : History W) : Prop where
  rules : h.rules = h'.rules
  weekRolls : h.weekRolls = h'.weekRolls
  weekBoosts : h.weekBoosts.Perm h'.weekBoosts
  lastRolls : h.lastRolls = h'.lastRolls
  latestRoll : h.latestRoll = h'.latestRoll
  activeBoosts : ∀ place, (h.activeBoosts place).Perm (h'.activeBoosts place)

namespace Alike

theorem lastRolled (alike : Alike h h') (place : PlaceId) :
    h.lastRolled place = h'.lastRolled place := by
  rw [History.lastRolled, History.lastRolled, alike.lastRolls]

theorem pointsLeft (alike : Alike h h') (user : UserId) : h.pointsLeft user = h'.pointsLeft user := by
  have rerolls : h.rerolls = h'.rerolls := by
    rw [History.rerolls, History.rerolls, alike.weekRolls]
  have spent : h.pointsSpent user = h'.pointsSpent user := by
    rw [pointsSpent, pointsSpent, alike.weekBoosts.countP_eq, rerolls]
  rw [History.pointsLeft, History.pointsLeft, spent, alike.rules]

theorem mayBoost (alike : Alike h h') (user : UserId) : h.mayBoost user = h'.mayBoost user := by
  rw [History.mayBoost, History.mayBoost, alike.pointsLeft]

theorem mayRoll (alike : Alike h h') (user : UserId) (t : Instant) :
    h.mayRoll user t = h'.mayRoll user t := by
  rw [History.mayRoll, History.mayRoll, hasRolledOn, hasRolledOn, alike.pointsLeft, alike.weekRolls,
    alike.rules]

/-- How many boosts a place has counts, and not which they are. -/
theorem weight [Weight W] (alike : Alike h h') (total : Nat) (t : Instant) (place : PlaceId) :
    h.weight total t place = h'.weight total t place := by
  rw [weight_eq_iterate, weight_eq_iterate, alike.rules, freshness_congr (alike.lastRolled place),
    (alike.activeBoosts place).length_eq]

theorem weights [Weight W] (alike : Alike h h') (places : List PlaceId) (t : Instant) :
    h.weights places t = h'.weights places t := by
  simp only [History.weights, alike.weight]

end Alike

/-! ### Reordered rolls and boosts -/

section Reordered

/-- Whether two lists hold the same rolls at every instant, in the same order. -/
def SameTies (rolls rolls' : List Roll) : Prop :=
  ∀ t, rolls.filter (fun r => r.time = t) = rolls'.filter fun r => r.time = t

theorem SameTies.filter (same : SameTies rolls rolls') (q : Roll → Bool) :
    SameTies (rolls.filter q) (rolls'.filter q) := by
  intro t
  rw [List.filter_comm, same t, List.filter_comm]

theorem SameTies.oldestFirst_eq (same : SameTies rolls rolls') :
    oldestFirst rolls = oldestFirst rolls' :=
  Instant.mergeSort_le_congr same

theorem SameTies.perm (same : SameTies rolls rolls') : rolls.Perm rolls' := calc
  rolls.Perm (oldestFirst rolls) := (List.mergeSort_perm rolls _).symm
  _ = oldestFirst rolls' := same.oldestFirst_eq
  List.Perm _ rolls' := List.mergeSort_perm rolls' _

theorem SameTies.weekRolls_eq (same : SameTies rolls rolls') (boosts boosts' : List Boost)
    (now : Instant) (rules : Rules W) :
    (build rolls boosts now rules).weekRolls = (build rolls' boosts' now rules).weekRolls := by
  apply Table.ext_get?
  intro day
  simp only [build, Table.get?_map, Table.get?_group_eq]
  have sameDay := (same.filter fun r => inWeek rules r.time now).filter
    fun r => r.time.localDay rules.offset = day
  split_ifs with none none' none'
  · rfl
  · exact absurd (List.nil_perm.1 (none ▸ sameDay.perm)) none'
  · exact absurd (List.perm_nil.1 (none' ▸ sameDay.perm)) none
  · exact congrArg some sameDay.oldestFirst_eq

/-- Reordered rolls and boosts have histories alike. -/
theorem SameTies.alike (same : SameTies rolls rolls') (perm : boosts.Perm boosts') (now : Instant)
    (rules : Rules W) : Alike (build rolls boosts now rules) (build rolls' boosts' now rules) := by
  have latest : (rolls.map Roll.time).max? = (rolls'.map Roll.time).max? :=
    Instant.max?_perm (same.perm.map _)
  refine ⟨rfl, same.weekRolls_eq boosts boosts' now rules, perm.filter _, ?_, latest, fun place => ?_⟩
  · apply Table.ext_get?
    intro place
    simp only [build, get?_lastRollTimes]
    exact Instant.max?_perm ((same.perm.filter _).map _)
  · simp only [History.activeBoosts, build, Table.getD_get?_group, latest]
    exact (perm.filter _).filter _

end Reordered

/-- Boosts may be given in any order, and rolls in any order in which those of one instant stand as they
did: the history tells the same of all rolls, places and users. -/
theorem build_reorder [Weight W] (rules : Rules W) (now : Instant) (rolls rolls' : List Roll)
    (σ : Fin rolls.length ≃ Fin rolls'.length) (same : ∀ i, rolls.get i = rolls'.get (σ i))
    (keeps : ∀ i j, i < j → (rolls.get i).time = (rolls.get j).time → σ i < σ j)
    (perm : boosts.Perm boosts') :
    let h := build rolls boosts now rules
    let h' := build rolls' boosts' now rules
    h.latestRoll = h'.latestRoll ∧
      (∀ place, h.lastRolled place = h'.lastRolled place ∧
        (h.activeBoosts place).Perm (h'.activeBoosts place)) ∧
      (∀ places t, h.weights places t = h'.weights places t) ∧
      ∀ user, h.pointsLeft user = h'.pointsLeft user ∧ h.mayBoost user = h'.mayBoost user ∧
        ∀ t, h.mayRoll user t = h'.mayRoll user t := by
  intro h h'
  have ties : SameTies rolls rolls' := fun t => filter_eq_of_equiv σ same fun i j before hi hj =>
    keeps i j before ((of_decide_eq_true hi).trans (of_decide_eq_true hj).symm)
  have alike : Alike h h' := ties.alike perm now rules
  exact ⟨alike.latestRoll, fun place => ⟨alike.lastRolled place, alike.activeBoosts place⟩,
    alike.weights, fun user => ⟨alike.pointsLeft user, alike.mayBoost user, alike.mayRoll user⟩⟩

/-- The same rolls, with the last one given first. -/
def rotatedRolls : List Roll := fourRolls.rotateRight

/-- A boost after the last roll, and one of the first day. -/
def twoBoosts : List Boost :=
  { id := ⟨.ofNat 6⟩, user := ⟨"carl"⟩, place := default, room := default,
    time := .ofSeconds 90060 } :: oneBoost

/-- Carl has spent two points in either order, and the other boost is still active. -/
theorem build_reorder_fourRolls :
    let h := build fourRolls twoBoosts default Rules.standard
    let h' := build rotatedRolls twoBoosts.reverse default Rules.standard
    (∀ i, fourRolls.get i = rotatedRolls.get (finRotate 4 i)) ∧
      (∀ i j, i < j → (fourRolls.get i).time = (fourRolls.get j).time →
        finRotate 4 i < finRotate 4 j) ∧
      twoBoosts.Perm twoBoosts.reverse ∧ h.pointsLeft ⟨"carl"⟩ = -1 ∧ h'.pointsLeft ⟨"carl"⟩ = -1 ∧
      (h'.activeBoosts default).length = 1 := by
  intro h h'
  have same : ∀ i, fourRolls.get i = rotatedRolls.get (finRotate 4 i) := by decide
  have keeps : ∀ i j, i < j → (fourRolls.get i).time = (fourRolls.get j).time →
      finRotate 4 i < finRotate 4 j := by decide
  have perm := (List.reverse_perm twoBoosts).symm
  have spent : h.pointsLeft ⟨"carl"⟩ = -1 := by
    rw [pointsLeft, pointsSpent_eq]
    decide +kernel
  have active : (h.activeBoosts default).length = 1 := by decide +kernel
  obtain ⟨-, places, -, users⟩ := build_reorder Rules.standard default fourRolls rotatedRolls
    (finRotate 4) same keeps perm
  exact ⟨same, keeps, perm, spent, (users ⟨"carl"⟩).1.symm.trans spent,
    (places default).2.length_eq.symm.trans active⟩

end History

end NoonDraw
