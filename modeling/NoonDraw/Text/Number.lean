import NoonDraw.Text.Digits

/-!
# Numbers in text

Reading whole numbers within a range, and decimal numbers as the nearest double.

A whole number is digits, with a plus sign in front at will and a minus sign where the range has
negative numbers; a text whose value is out of range is no number. A decimal number has a sign at
will, digits with at most one point among or around them, and an exponent at will; infinity and
not-a-number are spelled `inf`, `infinity` and `nan` in either case.

## Main definitions

* `Text.unsigned?`, `Text.signed?`: whole numbers of so many bits.
* `Text.Decimal`: a decimal number as its digits and a power of ten, with `Decimal.toFloat`.
* `Text.float?`: a double from text.
-/

namespace NoonDraw.Text

/-- Reads one digit or more, and nothing else. -/
def natural? (cs : List Char) : Option Nat := if cs.isEmpty then none else Digits.value? 10 cs

/-- Reads a whole number of at most so many bits. -/
def unsigned? (bits : Nat) (s : String) : Option Nat :=
  let magnitude? := match s.toList with
    | '+' :: rest => natural? rest
    | cs => natural? cs
  magnitude?.filter fun n => n < 1 <<< bits

/-- Reads a whole number that fits so many bits, one of which is its sign. -/
def signed? (bits : Nat) (s : String) : Option Int :=
  let value? : Option Int := match s.toList with
    | '+' :: rest => (natural? rest).map Int.ofNat
    | '-' :: rest => (natural? rest).map fun n => -Int.ofNat n
    | cs => (natural? cs).map Int.ofNat
  let bound : Int := Int.ofNat (1 <<< (bits - 1))
  value?.filter fun n => -bound ≤ n ∧ n < bound

/-- The decimal number `digits * 10 ^ exponent`. -/
structure Decimal where
  /-- The digits, without the point. -/
  digits : Nat
  /-- The power of ten that the digits count. -/
  exponent : Int
  deriving DecidableEq

namespace Decimal

/-- Splits off the digits at the front. -/
def splitDigits (cs : List Char) : List Char × List Char :=
  (cs.takeWhile Digits.isDecimal, cs.dropWhile Digits.isDecimal)

/-- Reads an exponent, if there is one. -/
def exponent? : List Char → Option Int
  | [] => some 0
  | e :: rest =>
    if e = 'e' ∨ e = 'E' then
      match rest with
      | '+' :: ds => (natural? ds).map Int.ofNat
      | '-' :: ds => (natural? ds).map fun n => -Int.ofNat n
      | ds => (natural? ds).map Int.ofNat
    else none

/-- Reads digits with at most one point, and an exponent. -/
def ofChars? (cs : List Char) : Option Decimal := do
  let (whole, rest) := splitDigits cs
  let (fraction, rest) := match rest with
    | '.' :: rest => splitDigits rest
    | rest => ([], rest)
  let digits ← natural? (whole ++ fraction)
  let exponent ← exponent? rest
  return ⟨digits, exponent - fraction.length⟩

/-- The nearest double, a tie going to the even one. Numbers above `10 ^ 400` are past every finite
double, and numbers below `10 ^ -400` are nearer to zero than to any other. -/
def toFloat (d : Decimal) : Float :=
  let magnitude : Int := (Digits.decimal d.digits).length + d.exponent
  if d.digits = 0 ∨ magnitude < -400 then 0.0
  else if 400 < magnitude then 1.0 / 0.0
  else Float.ofScientific d.digits (d.exponent < 0) d.exponent.natAbs

end Decimal

/-- Reads a double without its sign: a decimal number, infinity or not-a-number. -/
def magnitude? (cs : List Char) : Option Float :=
  let word := String.ofList (cs.map Char.toLower)
  if word = "inf" ∨ word = "infinity" then some (1.0 / 0.0)
  else if word = "nan" then some (0.0 / 0.0)
  else (Decimal.ofChars? cs).map Decimal.toFloat

/-- Reads a double. -/
def float? (s : String) : Option Float :=
  match s.toList with
  | '+' :: rest => magnitude? rest
  | '-' :: rest => (magnitude? rest).map fun x => -x
  | cs => magnitude? cs

end NoonDraw.Text
