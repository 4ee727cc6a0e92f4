import NoonDraw.Entity
import NoonDraw.Rules

/-!
# The history of a room

What the rolls and boosts of a room mean at one instant: how many points each user has left in the
week, and how much each place weighs in the next draw.

A boost costs a point, and so does every roll of a day after its first. The weeks and days are those
of the local clock. A place weighs more the longer ago it was rolled, and each boost since the latest
roll multiplies its weight.

## Main definitions

* `History.build`: the history as seen at an instant.
* `History.pointsLeft`, `History.mayRoll`, `History.mayBoost`: the quota.
* `History.freshness`, `History.weights`: the weights of places.
-/

namespace NoonDraw

/-- What the rolls and boosts of a room mean at one instant. -/
structure History (W : Type) where
  /-- The rules in force. -/
  rules : Rules W
  /-- The rolls of the week by local day, each day from the oldest on. -/
  weekRolls : Table Day (List Roll)
  /-- The boosts of the week. -/
  weekBoosts : List Boost
  /-- When each place was rolled last, over all time. -/
  lastRolls : Table PlaceId Instant
  /-- When the room rolled last. -/
  latestRoll : Option Instant
  /-- The boosts of each place since the latest roll. -/
  boostsSinceRoll : Table PlaceId (List Boost)

namespace History

variable {W : Type}

/-- Rolls from the oldest on; those of one instant keep their order. -/
def oldestFirst (rolls : List Roll) : List Roll :=
  rolls.mergeSort fun a b => decide (a.time ≤ b.time)

/-- When each place of some rolls was rolled last. -/
def lastRollTimes (rolls : List Roll) : Table PlaceId Instant :=
  rolls.foldl (fun times r => times.alter r.place fun last => some (max (last.getD r.time) r.time)) ∅

/-- Whether an instant is later than the latest roll, if there was one. -/
def isSince (latest : Option Instant) (t : Instant) : Bool :=
  match latest with
  | none => true
  | some latest => decide (latest < t)

/-- The history of a room as seen at `now`. -/
def build (rolls : List Roll) (boosts : List Boost) (now : Instant) (rules : Rules W) : History W :=
  let inWeek (t : Instant) : Bool := t.isoWeek rules.offset = now.isoWeek rules.offset
  let latest := (rolls.map Roll.time).max?
  { rules
    weekRolls := (Table.group (fun r : Roll => r.time.localDay rules.offset)
      (rolls.filter fun r => inWeek r.time)).map fun _ day => oldestFirst day
    weekBoosts := boosts.filter fun b => inWeek b.time
    lastRolls := lastRollTimes rolls
    latestRoll := latest
    boostsSinceRoll := Table.group Boost.place (boosts.filter fun b => isSince latest b.time) }

/-! ### Points -/

/-- The rolls of the week that cost a point: on each day all but the first. -/
def rerolls (h : History W) : List Roll := h.weekRolls.values.flatMap fun day => day.drop 1

/-- How many points a user has spent in the week. -/
def pointsSpent (h : History W) (user : UserId) : Nat :=
  h.weekBoosts.countP (fun b => b.user = user) + h.rerolls.countP fun r => r.user = user

/-- The least value of a count of points. -/
def leastPoints : Int := Int64.minValue.toInt

/-- How many points a user has left for the week; it may be negative. -/
def pointsLeft (h : History W) (user : UserId) : Int :=
  max leastPoints (h.rules.weeklyPoints - h.pointsSpent user)

/-- Whether the room has rolled on the local day of an instant, as far as the week of the history
goes. -/
def hasRolledOn (h : History W) (t : Instant) : Bool :=
  h.weekRolls.contains (t.localDay h.rules.offset)

/-- Whether a user may roll: the first roll of a day is free. -/
def mayRoll (h : History W) (user : UserId) (now : Instant) : Bool :=
  !h.hasRolledOn now || decide (0 < h.pointsLeft user)

/-- Whether a user may boost. -/
def mayBoost (h : History W) (user : UserId) : Bool := decide (0 < h.pointsLeft user)

/-! ### Weights -/

/-- The boosts of a place since the latest roll, in the order given. -/
def activeBoosts (h : History W) (place : PlaceId) : List Boost :=
  (h.boostsSinceRoll.get? place).getD []

/-- When a place was rolled last, if ever. -/
def lastRolled (h : History W) (place : PlaceId) : Option Instant := h.lastRolls.get? place

/-- The weight of a place before boosts, among `total` places: one more than the full days since it
was rolled, and at most `total`, which is also the weight of a place never rolled. -/
def freshness (h : History W) (total : Nat) (now : Instant) (place : PlaceId) : Nat :=
  match h.lastRolled place with
  | none => total
  | some last =>
    let days := now.wholeDaysSince last
    if total ≤ days then total else days + 1

/-- The weight of a place among `total` places. -/
def weight [Weight W] (h : History W) (total : Nat) (now : Instant) (place : PlaceId) : W :=
  (h.activeBoosts place).foldl (fun w _ => w * h.rules.boostMultiplier)
    (Weight.ofCount (h.freshness total now place))

/-- The weights of places at an instant. -/
def weights [Weight W] (h : History W) (places : List PlaceId) (now : Instant) : Table PlaceId W :=
  Table.ofList (places.map fun p => (p, h.weight places.length now p))

end History

end NoonDraw
