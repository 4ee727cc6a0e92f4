import NoonDraw.Text.Digits

/-!
# Shortest decimal text of a double

A finite double is `m * 2 ^ q` for whole numbers `m` and `q`. The decimals that read back as it are
those between the midpoints to its neighbours, the midpoints themselves included when `m` is even.
Among them the text takes one with the fewest digits, and of those the nearest; a tie goes to the
one farther from zero.

For each count of digits it is enough to look at the two decimals around the double itself: if any
decimal of so many digits reads back, one of these does.

## Main definitions

* `Binary64.ofFloat`: a finite double as sign, `m` and `q`.
* `Binary64.shortest`: the digits and the place of the point, in exact arithmetic.
* `positional`: a double in positional notation, never with an exponent, as messages show it.
-/

namespace NoonDraw.Text

/-- The finite double `(-1) ^ negative * significand * 2 ^ exponent`. -/
structure Binary64 where
  /-- Whether the sign is set; zero has a sign too. -/
  negative : Bool
  /-- The significand, below `2 ^ 53`. -/
  significand : Nat
  /-- The power of two that the significand counts. -/
  exponent : Int
  deriving DecidableEq

namespace Binary64

/-- The parts of a double; for infinities and not-a-number they mean nothing. -/
def ofFloat (x : Float) : Binary64 :=
  let bits := x.toBits.toNat
  let stored := (bits >>> 52) % 2048
  let fraction := bits % (1 <<< 52)
  { negative := bits >>> 63 = 1
    significand := if stored = 0 then fraction else (1 <<< 52) + fraction
    exponent := Int.ofNat (max stored 1) - 1075 }

/-- A quotient of whole numbers. -/
structure Quotient where
  /-- The dividend. -/
  num : Nat
  /-- The divisor, above zero. -/
  den : Nat

/-- `n * 2 ^ e` as a quotient. -/
def scaled (n : Nat) (e : Int) : Quotient :=
  if 0 ≤ e then ⟨n <<< e.toNat, 1⟩ else ⟨n, 1 <<< (-e).toNat⟩

/-- The number of digits before the point: the least `k` with the quotient below `10 ^ k`. -/
def magnitude (x : Quotient) : Int :=
  if x.den ≤ x.num then (Digits.decimal (x.num / x.den)).length
  else
    let k := (Digits.decimal (x.den / x.num)).length
    if x.den ≤ x.num * Nat.pow 10 (k - 1) then 2 - k else 1 - k

/-- The digits of a nonzero double and the number of them that stand before the point, if a decimal of
`count` digits reads back as it. -/
def withDigits? (x : Binary64) (count : Nat) : Option (Nat × Int) :=
  -- Quarters of the last place of the significand make both midpoints whole numbers.
  let value := scaled (4 * x.significand) (x.exponent - 2)
  let above := scaled (4 * x.significand + 2) (x.exponent - 2)
  let below := scaled (4 * x.significand -
    if x.significand = 1 <<< 52 ∧ -1074 < x.exponent then 1 else 2) (x.exponent - 2)
  let point := magnitude value
  -- One step of the decimal grid is `10 ^ (point - count)`.
  let step := point - count
  let up := Nat.pow 10 (-step).toNat
  let down := Nat.pow 10 step.toNat
  let floor := value.num * up / (value.den * down)
  let within (n : Nat) : Bool :=
    let left := below.num * up
    let middle (q : Quotient) := n * down * q.den
    let right := above.num * up
    if x.significand % 2 = 0 then left ≤ middle below ∧ middle above ≤ right
    else left < middle below ∧ middle above < right
  -- Twice the distance of the value from the lower point, in steps.
  let twice := 2 * (value.num * up - floor * (value.den * down))
  match within floor, within (floor + 1) with
  | true, true => some (if twice < value.den * down then floor else floor + 1, point)
  | true, false => some (floor, point)
  | false, true => some (floor + 1, point)
  | false, false => none

/-- The fewest digits that read back as a nonzero double, and how many stand before the point.
Seventeen digits are always enough. -/
def shortest (x : Binary64) : List Char × Int :=
  match (List.range 17).findSome? fun n => (x.withDigits? (n + 1)).map (·, n + 1) with
  | some ((digits, point), count) =>
    let ds := Digits.decimal digits
    -- A rounding up to the next power of ten makes one digit more.
    (ds, point + (ds.length - count))
  | none => (['0'], 1)

end Binary64

/-- Digits with a decimal point after the first `point` of them, filled up with zeros. -/
def placePoint (ds : List Char) (point : Int) : List Char :=
  if point ≤ 0 then '0' :: '.' :: List.replicate (-point).toNat '0' ++ ds
  else if ds.length ≤ point.toNat then ds ++ List.replicate (point.toNat - ds.length) '0'
  else ds.take point.toNat ++ '.' :: ds.drop point.toNat

/-- Digits without the zeros at their end. -/
def dropTrailingZeros (ds : List Char) : List Char := (ds.reverse.dropWhile (· = '0')).reverse

/-- A double in positional notation with the fewest digits that read back. Whole numbers have no
point, zero keeps its sign, and infinity and not-a-number are `inf` and `NaN`. -/
def positional (x : Float) : String :=
  if x.isNaN then "NaN"
  else
    let parts := Binary64.ofFloat x
    let sign := if parts.negative then "-" else ""
    if x.isInf then sign ++ "inf"
    else if parts.significand = 0 then sign ++ "0"
    else
      let (ds, point) := parts.shortest
      sign ++ String.ofList (placePoint (dropTrailingZeros ds) point)

end NoonDraw.Text
