import NoonDraw.Failure
import NoonDraw.Instant
import NoonDraw.Text.Shortest
import NoonDraw.Weight

/-!
# Rules of the draw

How many points a user has for a week, what a boost does to the weight of a place, and by which clock
days and weeks are counted.

`Rules.problem?` says what is wrong with rules, if anything: the points must not be negative, and the
multiplier must be a finite number above zero.
-/

namespace NoonDraw

/-- The rules of quota and weight. -/
structure Rules (W : Type) where
  /-- Points that every user has for each week. -/
  weeklyPoints : Int
  /-- The factor on a weight for each active boost. -/
  boostMultiplier : W
  /-- The offset of the clock by which days and weeks are counted. -/
  offset : UtcOffset

/-- What can be wrong with rules. -/
inductive RulesProblem (W : Type) where
  /-- The points are negative. -/
  | negativePoints (points : Int)
  /-- The multiplier is not a finite number above zero. -/
  | unusableMultiplier (multiplier : W)

namespace Rules

/-- One point a week, a factor of five, days by UTC. -/
def standard : Rules Float where
  weeklyPoints := 1
  boostMultiplier := 5.0
  offset := .utc

instance : Inhabited (Rules Float) := ⟨standard⟩

/-- Rules are the same if their numbers are; no number is the same as not-a-number. -/
instance : BEq (Rules Float) where
  beq a b := a.weeklyPoints == b.weeklyPoints && a.boostMultiplier == b.boostMultiplier &&
    a.offset = b.offset

/-- The first thing wrong with rules. -/
def problem? {W : Type} [Weight W] (r : Rules W) : Option (RulesProblem W) :=
  if r.weeklyPoints < 0 then some (.negativePoints r.weeklyPoints)
  else if !Weight.isUsable r.boostMultiplier then some (.unusableMultiplier r.boostMultiplier)
  else none

end Rules

/-- What is wrong with rules, in words. -/
def RulesProblem.message : RulesProblem Float → String
  | negativePoints points => s!"WEEKLY_POINTS must not be negative: {points}"
  | unusableMultiplier multiplier =>
    "BOOST_MULTIPLIER must be a finite number above zero: " ++ Text.positional multiplier

/-- Accepts rules that make sense. -/
def Rules.validate (r : Rules Float) : Except Failure Unit :=
  match r.problem? with
  | some problem => .error (.settings problem.message)
  | none => .ok ()

end NoonDraw
