/-!
# Random numbers

A generator of doubles in the unit interval. Its words are the key stream of ChaCha with twelve
rounds, a 64-bit block counter and no nonce; its key is spread from a seed of 64 bits by a permuted
congruential generator. So a seed determines every number that follows.

## Main definitions

* `ChaCha.block`: sixteen words of the key stream, for a key and a block number.
* `Generator.spread`: the key of a seed.
* `Generator.unit`: the next number, with 52 random bits, and the generator after it.
-/

namespace NoonDraw

namespace ChaCha

/-- The state of the cipher: sixteen words. -/
abbrev State := Vector UInt32 16

/-- Rotates a word to the left. -/
def rotateLeft (x : UInt32) (n : UInt32) : UInt32 := (x <<< n) ||| (x >>> (32 - n))

/-- Adds one word to another and mixes the sum into a third. -/
def mix (s : State) (a b d : Fin 16) (n : UInt32) : State :=
  let sum := s[a] + s[b]
  (s.set a sum).set d (rotateLeft (s[d] ^^^ sum) n)

/-- One quarter round. -/
def quarterRound (s : State) (a b c d : Fin 16) : State :=
  let s := mix s a b d 16
  let s := mix s c d b 12
  let s := mix s a b d 8
  mix s c d b 7

/-- A round over the columns and one over the diagonals. -/
def doubleRound (s : State) : State :=
  let s := quarterRound s 0 4 8 12
  let s := quarterRound s 1 5 9 13
  let s := quarterRound s 2 6 10 14
  let s := quarterRound s 3 7 11 15
  let s := quarterRound s 0 5 10 15
  let s := quarterRound s 1 6 11 12
  let s := quarterRound s 2 7 8 13
  quarterRound s 3 4 9 14

/-- A number of double rounds. -/
def rounds : Nat → State → State
  | 0, s => s
  | n + 1, s => rounds n (doubleRound s)

/-- The state before the first round: four constants, the key, the block number, and no nonce. -/
def start (key : Vector UInt32 8) (counter : UInt64) : State :=
  #v[0x61707865, 0x3320646e, 0x79622d32, 0x6b206574, key[0], key[1], key[2], key[3], key[4], key[5],
    key[6], key[7], counter.toUInt32, (counter >>> 32).toUInt32, 0, 0]

/-- Sixteen words of the key stream after twelve rounds. -/
def block (key : Vector UInt32 8) (counter : UInt64) : State :=
  let s := start key counter
  Vector.zipWith (· + ·) (rounds 6 s) s

/-- A word of the key stream by its position. -/
def word (key : Vector UInt32 8) (position : Nat) : UInt32 :=
  (block key (UInt64.ofNat (position / 16))).get ⟨position % 16, Nat.mod_lt _ (by decide)⟩

end ChaCha

/-- A source of random numbers: a key and the number of words of its key stream already used. -/
structure Generator where
  /-- The key. -/
  key : Vector UInt32 8
  /-- How many words have been used. -/
  position : Nat

namespace Generator

/-- One step of the congruential generator that spreads a seed. -/
def advance (state : UInt64) : UInt64 := state * 6364136223846793005 + 11634580027462260723

/-- The word that a state of that generator shows. -/
def shown (state : UInt64) : UInt32 :=
  let x := (((state >>> 18) ^^^ state) >>> 27).toUInt32
  let n := (state >>> 59).toUInt32
  (x >>> n) ||| (x <<< (32 - n))

/-- So many words of key from a state. -/
def spread : Nat → UInt64 → List UInt32
  | 0, _ => []
  | n + 1, state => shown (advance state) :: spread n (advance state)

theorem length_spread (n : Nat) (state : UInt64) : (spread n state).length = n := by
  induction n generalizing state with
  | zero => rfl
  | succ n ih => simp [spread, ih]

/-- The generator of a seed. -/
def ofSeed (seed : UInt64) : Generator where
  key := ⟨(spread 8 seed).toArray, by simp [length_spread]⟩
  position := 0

/-- The next number, at least 0 and below 1. Two words make it, of which the high 52 bits count. -/
def unit (g : Generator) : Float × Generator :=
  let low := (ChaCha.word g.key g.position).toUInt64
  let high := (ChaCha.word g.key (g.position + 1)).toUInt64
  let bits := (low ||| (high <<< 32)) >>> 12
  let mantissa : UInt64 := 0x3ff0000000000000 ||| bits
  (Float.ofBits mantissa - 1.0, { g with position := g.position + 2 })

end Generator

end NoonDraw
