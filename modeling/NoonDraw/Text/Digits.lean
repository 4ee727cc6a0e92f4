/-!
# Digits in a positional base

Reading and writing natural numbers as digits in a base of at most sixteen. Digits above nine are
written in lower case and read in either case.

## Main definitions

* `Digits.value?`: the number that a list of digits denotes.
* `Digits.fixedWidth`: a number as exactly so many digits, with leading zeros.
* `Digits.decimal`: a number as its decimal digits, without leading zeros.

`value?_fixedWidth` says that a number that fits its width reads back.
-/

namespace NoonDraw.Text.Digits

/-- The value of one digit, if it is one in this base. -/
def digit? (base : Nat) (c : Char) : Option Nat :=
  let d :=
    if '0' ≤ c ∧ c ≤ '9' then c.toNat - '0'.toNat
    else if 'a' ≤ c ∧ c ≤ 'f' then c.toNat - 'a'.toNat + 10
    else if 'A' ≤ c ∧ c ≤ 'F' then c.toNat - 'A'.toNat + 10
    else base
  if d < base then some d else none

/-- Whether a character is one of `0` to `9`. -/
def isDecimal (c : Char) : Bool := '0' ≤ c ∧ c ≤ '9'

/-- Reads digits on from a number already read. -/
def valueFrom? (base acc : Nat) : List Char → Option Nat
  | [] => some acc
  | c :: rest => (digit? base c).bind fun d => valueFrom? base (acc * base + d) rest

/-- The number that a list of digits denotes; a list with anything but digits denotes none. -/
def value? (base : Nat) (cs : List Char) : Option Nat := valueFrom? base 0 cs

/-- How many numbers fit so many digits: `base ^ width`. -/
def capacity (base : Nat) : Nat → Nat
  | 0 => 1
  | width + 1 => capacity base width * base

/-- A number modulo `base ^ width`, as exactly `width` digits. -/
def fixedWidth (base : Nat) : Nat → Nat → List Char
  | 0, _ => []
  | width + 1, n => fixedWidth base width (n / base) ++ [Nat.digitChar (n % base)]

/-- The decimal digits of a number, without leading zeros. -/
def decimal (n : Nat) : List Char := Nat.toDigits 10 n

/-- Decimal digits, with leading zeros up to a least width. -/
def padded (width n : Nat) : List Char :=
  let ds := decimal n
  List.replicate (width - ds.length) '0' ++ ds

@[simp] theorem length_fixedWidth (base width n : Nat) : (fixedWidth base width n).length = width := by
  induction width generalizing n with
  | zero => rfl
  | succ w ih => simp [fixedWidth, ih]

theorem digit?_digitChar {base d : Nat} (hbase : base ≤ 16) (hd : d < base) :
    digit? base (Nat.digitChar d) = some d := by
  have h16 : d < 16 := by omega
  have : ∀ b, b ≤ 16 → ∀ d, d < 16 → d < b → digit? b (Nat.digitChar d) = some d := by decide
  exact this base hbase d h16 hd

theorem valueFrom?_append (base : Nat) (cs ds : List Char) (acc : Nat) :
    valueFrom? base acc (cs ++ ds) = (valueFrom? base acc cs).bind fun n => valueFrom? base n ds := by
  induction cs generalizing acc with
  | nil => rfl
  | cons c cs ih =>
    simp only [List.cons_append, valueFrom?]
    cases digit? base c with
    | none => rfl
    | some d => simpa using ih _

theorem valueFrom?_fixedWidth {base : Nat} (hpos : 0 < base) (hbase : base ≤ 16)
    (width n acc : Nat) (h : n < capacity base width) :
    valueFrom? base acc (fixedWidth base width n) = some (acc * capacity base width + n) := by
  induction width generalizing n with
  | zero => simp_all [fixedWidth, valueFrom?, capacity]
  | succ w ih =>
    have hq : n / base < capacity base w := Nat.div_lt_of_lt_mul (by rwa [capacity, Nat.mul_comm] at h)
    rw [fixedWidth, valueFrom?_append, ih _ hq]
    simp only [Option.bind_some, valueFrom?, digit?_digitChar hbase (Nat.mod_lt n hpos)]
    have hn := Nat.div_add_mod n base
    rw [capacity, ← Nat.mul_assoc, Nat.add_mul, Nat.add_assoc, Nat.mul_comm (n / base), hn]

/-- A number that fits its width reads back from its digits. -/
theorem value?_fixedWidth {base : Nat} (hpos : 0 < base) (hbase : base ≤ 16) {width n : Nat}
    (h : n < capacity base width) : value? base (fixedWidth base width n) = some n := by
  simp [value?, valueFrom?_fixedWidth hpos hbase width n 0 h]

end NoonDraw.Text.Digits
