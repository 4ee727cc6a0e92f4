import NoonDraw.Identifier
import NoonDraw.Lottery.Generator
import NoonDraw.Weight

/-!
# The draw

A place is drawn with a chance in proportion to its weight: a number below the sum of all weights is
drawn, and the weights are taken off it in the order of the places until it falls below zero.

## Main definitions

* `total`, `chances`: the sum of weights, and each weight's part of it.
* `landing?`: the place that a number drawn falls on.
* `place?`: the same for a whole table, where the last place takes what rounding leaves over.
* `Lottery.pick`: one draw of a seeded generator.
-/

namespace NoonDraw

variable {W : Type} [Weight W]

namespace Lottery

/-- The sum of the weights, added up in the order of the places. -/
def total (weights : Table PlaceId W) : W := weights.values.foldl (· + ·) Weight.zero

/-- The chance of each place to be drawn; all are zero if there is nothing to share. -/
def chances (weights : Table PlaceId W) : Table PlaceId W :=
  let sum := total weights
  weights.map fun _ w => if Weight.zero < sum then w / sum else Weight.zero

/-- The place that a number falls on: the first at whose weight it drops below zero. -/
def landing? (number : W) : List (PlaceId × W) → Option PlaceId
  | [] => none
  | (place, weight) :: rest =>
    if number - weight < Weight.zero then some place else landing? (number - weight) rest

/-- The place that a number below the total falls on. What rounding leaves over goes to the last. -/
def place? (weights : Table PlaceId W) (number : W) : Option PlaceId :=
  landing? number weights.entries <|> weights.keys.getLast?

end Lottery

/-- A source of draws. -/
structure Lottery where
  /-- Where its random numbers come from. -/
  generator : Generator

namespace Lottery

/-- The lottery with a seed; without one, `entropy` takes its place. -/
def new (seed : Option UInt64) (entropy : UInt64) : Lottery := ⟨.ofSeed (seed.getD entropy)⟩

/-- Draws a place. No place is drawn, and no random number used, if the weights have no finite sum
above zero. -/
def pick (l : Lottery) (weights : Table PlaceId Float) : Option PlaceId × Lottery :=
  let sum := total weights
  if Weight.isUsable sum then
    let (u, generator) := l.generator.unit
    (place? weights (u * sum + 0.0), ⟨generator⟩)
  else (none, l)

end Lottery

end NoonDraw
