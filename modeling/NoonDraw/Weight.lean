/-!
# Numbers that weigh places

Weights, their sums and the draws between them are numbers of one type. The engine runs on doubles;
on rational numbers the same definitions are exact, which is where the laws of the draw are stated.
-/

namespace NoonDraw

/-- A type of weights: arithmetic, a decidable order, and a test for numbers that are not finite. -/
class Weight (W : Type) extends Add W, Sub W, Mul W, Div W, LT W where
  /-- A whole number as a weight. -/
  ofNat : Nat → W
  /-- Whether a weight is a finite number. -/
  isFinite : W → Bool
  /-- The order is decidable. -/
  decidableLT : DecidableLT W

namespace Weight

variable {W : Type} [Weight W]

instance : DecidableLT W := decidableLT

/-- The weight zero. -/
def zero : W := ofNat 0

/-- Whether a weight, or a sum of them, is a finite number above zero. -/
def isUsable (w : W) : Bool := isFinite w && decide (zero < w)

/-- A count as a weight; counts past 32 bits all weigh the same. -/
def ofCount (n : Nat) : W := ofNat (min n (UInt32.size - 1))

end Weight

instance : Weight Float where
  ofNat := Float.ofNat
  isFinite := Float.isFinite
  decidableLT := inferInstance

instance : Weight Rat where
  ofNat n := n
  isFinite _ := true
  decidableLT := inferInstance

end NoonDraw
