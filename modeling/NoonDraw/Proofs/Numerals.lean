import Mathlib
import NoonDraw.Text.Number

/-!
# What texts spell

The grammar of numbers, apart from how they are read: digits spell a natural number (`Text.Spells`), a
sign at will makes it a count or a whole number (`Text.IsCount`, `Text.IsWhole`), a point and an
exponent a decimal one (`Text.IsDecimal`).  Reading finds exactly what is spelled: whole numbers
as long as they are within the range of their bits (`Text.unsigned?_eq_some_iff`,
`Text.signed?_eq_some_iff`), decimal ones always (`Text.Decimal.ofChars?_eq_some`,
`Text.IsDecimal.exists_ofChars?`).
-/

namespace NoonDraw.Text

/-! ### Digits -/

/-- Digits, one or more, that spell a natural number, the first one counting most. -/
def Spells (cs : List Char) (n : Nat) : Prop :=
  cs ≠ [] ∧ (∀ c ∈ cs, c.isDigit) ∧
    n = Nat.ofDigits 10 (cs.reverse.map fun c => c.toNat - '0'.toNat)

theorem Digits.isDecimal_eq (c : Char) : isDecimal c = c.isDigit := by
  simp [isDecimal, Char.isDigit, Char.le_def]

theorem Digits.digit?_ten (c : Char) :
    digit? 10 c = if c.isDigit then some (c.toNat - '0'.toNat) else none := by
  rw [← isDecimal_eq, isDecimal, digit?]
  by_cases decimal : '0' ≤ c ∧ c ≤ '9'
  · have small : c.toNat ≤ '9'.toNat := decimal.2
    have few : c.toNat - '0'.toNat < 10 := by
      have : '9'.toNat = 57 ∧ '0'.toNat = 48 := by decide
      omega
    simp only [decimal, and_self, if_true, few, decide_true]
  · -- letters and all other characters count for ten or more
    simp only [decimal, if_false, decide_false, Bool.false_eq_true]
    refine if_neg (not_lt.2 ?_)
    split
    · exact Nat.le_add_left 10 _
    split
    · exact Nat.le_add_left 10 _
    · exact le_rfl

theorem Digits.valueFrom?_eq_some_iff {cs : List Char} {acc n : Nat} :
    valueFrom? 10 acc cs = some n ↔ (∀ c ∈ cs, c.isDigit) ∧
      n = Nat.ofDigits 10 (cs.reverse.map fun c => c.toNat - '0'.toNat) + 10 ^ cs.length * acc := by
  induction cs generalizing acc with
  | nil => simpa [valueFrom?] using eq_comm
  | cons c cs ih =>
    rw [valueFrom?, digit?_ten]
    split
    next digit =>
      have shifted : Nat.ofDigits 10 ((c :: cs).reverse.map fun c => c.toNat - '0'.toNat) +
          10 ^ (c :: cs).length * acc =
          Nat.ofDigits 10 (cs.reverse.map fun c => c.toNat - '0'.toNat) +
            10 ^ cs.length * (acc * 10 + (c.toNat - '0'.toNat)) := by
        rw [List.reverse_cons, List.map_append, Nat.ofDigits_append, List.length_map,
          List.length_reverse, List.length_cons, pow_succ, List.map_singleton, Nat.ofDigits_singleton]
        ring
      rw [Option.bind_some, ih, shifted, List.forall_mem_cons, and_iff_right digit]
    next none =>
      rw [Option.bind_none, List.forall_mem_cons]
      exact iff_of_false (Option.some_ne_none n).symm fun spelled => none spelled.1.1

theorem natural?_eq_some_iff {cs : List Char} {n : Nat} : natural? cs = some n ↔ Spells cs n := by
  rw [natural?]
  split
  next empty => simp_all [Spells]
  next some => simp_all [Spells, Digits.value?, Digits.valueFrom?_eq_some_iff]

/-! ### Whole numbers -/

/-- Digits that spell a number, with a plus sign in front at will. -/
def IsCount (cs : List Char) (n : Nat) : Prop :=
  Spells cs n ∨ ∃ ds, cs = '+' :: ds ∧ Spells ds n

/-- Digits that spell a number, with a sign in front at will. -/
def IsWhole (cs : List Char) (n : Int) : Prop :=
  (∃ k : Nat, IsCount cs k ∧ n = k) ∨ ∃ ds, ∃ k : Nat, cs = '-' :: ds ∧ Spells ds k ∧ n = -k

/-- A text that spells a count of at most so many bits. -/
def IsCountOf (bits : Nat) (s : String) (n : Nat) : Prop := IsCount s.toList n ∧ n < 2 ^ bits

/-- A text that spells a whole number of so many bits, one of which is its sign. -/
def IsWholeOf (bits : Nat) (s : String) (n : Int) : Prop :=
  IsWhole s.toList n ∧ -2 ^ (bits - 1) ≤ n ∧ n < 2 ^ (bits - 1)

/-- A sign is no digit. -/
theorem Spells.head {c : Char} {cs : List Char} {n : Nat} (spells : Spells (c :: cs) n) :
    c.isDigit = true :=
  spells.2.1 c List.mem_cons_self

theorem isCount_plus {ds : List Char} {n : Nat} : IsCount ('+' :: ds) n ↔ Spells ds n := by
  constructor
  · rintro (spells | ⟨_, same, spells⟩)
    · exact absurd spells.head (by decide)
    · cases same
      exact spells
  · exact fun spells => .inr ⟨ds, rfl, spells⟩

theorem isCount_unsigned {cs : List Char} {n : Nat} (unsigned : ∀ ds, cs ≠ '+' :: ds) :
    IsCount cs n ↔ Spells cs n :=
  or_iff_left fun ⟨ds, same, _⟩ => unsigned ds same

theorem isWhole_minus {ds : List Char} {n : Int} :
    IsWhole ('-' :: ds) n ↔ ∃ k : Nat, Spells ds k ∧ n = -k := by
  constructor
  · rintro (⟨k, spells | ⟨_, same, -⟩, -⟩ | ⟨_, k, same, spells, rfl⟩)
    · exact absurd spells.head (by decide)
    · cases same
    · cases same
      exact ⟨k, spells, rfl⟩
  · rintro ⟨k, spells, rfl⟩
    exact .inr ⟨ds, k, rfl, spells, rfl⟩

theorem isWhole_positive {cs : List Char} {n : Int} (positive : ∀ ds, cs ≠ '-' :: ds) :
    IsWhole cs n ↔ ∃ k : Nat, IsCount cs k ∧ n = k :=
  or_iff_left fun ⟨ds, _, same, _⟩ => positive ds same

/-- Reads digits with a plus sign at will. -/
theorem count_eq_some_iff {cs : List Char} {n : Nat} :
    (match cs with
      | '+' :: ds => natural? ds
      | cs => natural? cs) = some n ↔ IsCount cs n := by
  split
  next ds => rw [natural?_eq_some_iff, isCount_plus]
  next unsigned => rw [natural?_eq_some_iff, isCount_unsigned unsigned]

/-- Reads digits with a sign at will. -/
theorem whole_eq_some_iff {cs : List Char} {n : Int} :
    (match cs with
      | '+' :: ds => (natural? ds).map Int.ofNat
      | '-' :: ds => (natural? ds).map fun n => -Int.ofNat n
      | cs => (natural? cs).map Int.ofNat) = some n ↔ IsWhole cs n := by
  split
  next ds =>
    rw [isWhole_positive (by simp)]
    simp only [Option.map_eq_some_iff, natural?_eq_some_iff, isCount_plus]
    exact exists_congr fun k => and_congr_right' eq_comm
  next ds =>
    rw [isWhole_minus]
    simp only [Option.map_eq_some_iff, natural?_eq_some_iff]
    exact exists_congr fun k => and_congr_right' eq_comm
  next unsigned positive =>
    rw [isWhole_positive positive]
    simp only [Option.map_eq_some_iff, natural?_eq_some_iff, isCount_unsigned unsigned]
    exact exists_congr fun k => and_congr_right' eq_comm

/-- A count of so many bits is read if it is spelled and in range. -/
theorem unsigned?_eq_some_iff {bits : Nat} {s : String} {n : Nat} :
    unsigned? bits s = some n ↔ IsCountOf bits s n := by
  rw [unsigned?, Option.filter_eq_some_iff, decide_eq_true_iff, Nat.one_shiftLeft]
  exact and_congr_left' count_eq_some_iff

/-- A whole number of so many bits is read if it is spelled and in range. -/
theorem signed?_eq_some_iff {bits : Nat} {s : String} {n : Int} :
    signed? bits s = some n ↔ IsWholeOf bits s n := by
  have bound : Int.ofNat (1 <<< (bits - 1)) = 2 ^ (bits - 1) := by
    rw [Nat.one_shiftLeft]
    norm_cast
  rw [signed?, Option.filter_eq_some_iff, decide_eq_true_iff, bound]
  exact and_congr_left' whole_eq_some_iff

/-! ### Decimal numbers -/

/-- A power of ten, spelled with an `e` in either case in front of it, or not at all. -/
def IsExponent (cs : List Char) (e : Int) : Prop :=
  cs = [] ∧ e = 0 ∨ ∃ c ds, (c = 'e' ∨ c = 'E') ∧ cs = c :: ds ∧ IsWhole ds e

/-- Digits with at most one point among or around them, and an exponent at will. -/
def IsDecimal (cs : List Char) (d : Decimal) : Prop :=
  ∃ whole fraction rest e,
    (cs = whole ++ rest ∧ fraction = [] ∨ cs = whole ++ '.' :: (fraction ++ rest)) ∧
    Spells (whole ++ fraction) d.digits ∧ IsExponent rest e ∧ d.exponent = e - fraction.length

theorem isExponent_cons {c : Char} {ds : List Char} {e : Int} :
    IsExponent (c :: ds) e ↔ (c = 'e' ∨ c = 'E') ∧ IsWhole ds e := by
  constructor
  · rintro (⟨same, -⟩ | ⟨_, _, isE, same, isWhole⟩)
    · cases same
    · cases same
      exact ⟨isE, isWhole⟩
  · exact fun ⟨isE, isWhole⟩ => .inr ⟨c, ds, isE, rfl, isWhole⟩

/-- No exponent begins with a digit or a point. -/
theorem IsExponent.head {cs : List Char} {e : Int} (exponent : IsExponent cs e) :
    ∀ c ∈ cs.head?, c.isDigit = false ∧ c ≠ '.' := by
  rcases exponent with ⟨rfl, -⟩ | ⟨c, ds, isE, rfl, -⟩
  · nofun
  · rintro c ⟨⟩
    rcases isE with rfl | rfl <;> decide

namespace Decimal

theorem exponent?_eq_some_iff {cs : List Char} {e : Int} :
    exponent? cs = some e ↔ IsExponent cs e := by
  unfold exponent?
  split
  next => simp [IsExponent, eq_comm]
  next c ds =>
    rw [isExponent_cons]
    split
    next isE =>
      rw [and_iff_right isE]
      exact whole_eq_some_iff
    next notE => exact iff_of_false nofun fun spelled => notE spelled.1

/-- Splitting finds all digits, and digits only, at the front. -/
theorem splitDigits_eq_iff {cs ds rest : List Char} :
    splitDigits cs = (ds, rest) ↔
      cs = ds ++ rest ∧ (∀ c ∈ ds, c.isDigit) ∧ ∀ c ∈ rest.head?, c.isDigit = false := by
  have same : Digits.isDecimal = Char.isDigit := funext Digits.isDecimal_eq
  rw [splitDigits, same]
  constructor
  · rintro ⟨⟩
    refine ⟨List.takeWhile_append_dropWhile.symm, fun c mem => List.mem_takeWhile_imp mem,
      fun c first => ?_⟩
    have stops := List.head?_dropWhile_not Char.isDigit cs
    rwa [Option.mem_def.1 first] at stops
  · rintro ⟨rfl, digits, ends⟩
    rw [List.takeWhile_append_of_pos digits, List.dropWhile_append_of_pos digits]
    cases rest with
    | nil => simp
    | cons c rest => simp [ends c rfl]

theorem parts_eq_some_iff {whole fraction rest : List Char} {d : Decimal} :
    ((natural? (whole ++ fraction)).bind fun digits => (exponent? rest).bind fun exponent =>
      some (⟨digits, exponent - fraction.length⟩ : Decimal)) = some d ↔
      Spells (whole ++ fraction) d.digits ∧
        ∃ e, IsExponent rest e ∧ d.exponent = e - fraction.length := by
  simp only [Option.bind_eq_some_iff, natural?_eq_some_iff, exponent?_eq_some_iff, Option.some.injEq]
  constructor
  · rintro ⟨n, spells, e, exponent, rfl⟩
    exact ⟨spells, e, exponent, rfl⟩
  · rintro ⟨spells, e, exponent, same⟩
    exact ⟨d.digits, spells, e, exponent, by rw [← same]⟩

/-- A decimal number is read if it is spelled. -/
theorem ofChars?_eq_some_iff {cs : List Char} {d : Decimal} :
    ofChars? cs = some d ↔ IsDecimal cs d := by
  obtain ⟨whole, rest, splits⟩ : ∃ whole rest, splitDigits cs = (whole, rest) := ⟨_, _, rfl⟩
  obtain ⟨parts, digits, ends⟩ := splitDigits_eq_iff.1 splits
  -- the digits at the front are found whether a point follows them or not
  have found {whole' fraction' rest' : List Char} {n : Nat} (spells : Spells (whole' ++ fraction') n)
      (ends : ∀ c ∈ rest'.head?, c.isDigit = false) (same : cs = whole' ++ rest') :
      whole = whole' ∧ rest = rest' := by
    have digits' : ∀ c ∈ whole', c.isDigit := fun c mem =>
      spells.2.1 c (List.mem_append_left _ mem)
    exact Prod.mk.inj (splits.symm.trans (splitDigits_eq_iff.2 ⟨same, digits', ends⟩))
  unfold ofChars?
  rw [splits]
  dsimp only
  split
  next rest =>
    obtain ⟨fraction, tail, splits'⟩ : ∃ fraction tail, splitDigits rest = (fraction, tail) :=
      ⟨_, _, rfl⟩
    obtain ⟨parts', digits', ends'⟩ := splitDigits_eq_iff.1 splits'
    rw [splits']
    refine parts_eq_some_iff.trans ?_
    constructor
    · rintro ⟨spells, e, exponent, same⟩
      exact ⟨whole, fraction, tail, e, .inr (parts' ▸ parts), spells, exponent, same⟩
    · rintro ⟨whole', fraction', rest', e, ⟨shape, rfl⟩ | shape, spells, exponent, same⟩
      · obtain ⟨-, rfl⟩ := found spells (fun c first => (exponent.head c first).1) shape
        exact absurd rfl (exponent.head '.' rfl).2
      · obtain ⟨rfl, rest_eq⟩ := found spells (by simp) shape
        obtain rfl : rest = fraction' ++ rest' := (List.cons.inj rest_eq).2
        have digits'' : ∀ c ∈ fraction', c.isDigit := fun c mem =>
          spells.2.1 c (List.mem_append_right _ mem)
        obtain ⟨rfl, rfl⟩ := Prod.mk.inj (splits'.symm.trans (splitDigits_eq_iff.2
          ⟨rfl, digits'', fun c first => (exponent.head c first).1⟩))
        exact ⟨spells, e, exponent, same⟩
  next noPoint =>
    refine parts_eq_some_iff.trans ?_
    constructor
    · rintro ⟨spells, e, exponent, same⟩
      exact ⟨whole, [], rest, e, .inl ⟨parts, rfl⟩, spells, exponent, same⟩
    · rintro ⟨whole', fraction', rest', e, ⟨shape, rfl⟩ | shape, spells, exponent, same⟩
      · obtain ⟨rfl, rfl⟩ := found spells (fun c first => (exponent.head c first).1) shape
        exact ⟨spells, e, exponent, same⟩
      · obtain ⟨-, rest_eq⟩ := found spells (by simp) shape
        exact absurd rest_eq (noPoint _)

end Decimal

/-- Digits and a point that spell a decimal number, with a plus sign in front at will. -/
def IsUnsignedDecimal (cs : List Char) (d : Decimal) : Prop :=
  IsDecimal cs d ∨ ∃ ds, cs = '+' :: ds ∧ IsDecimal ds d

/-- A decimal number begins with a digit or with its point. -/
theorem IsDecimal.head {cs : List Char} {d : Decimal} (decimal : IsDecimal cs d) :
    ∃ c ds, cs = c :: ds ∧ (c.isDigit ∨ c = '.') := by
  obtain ⟨whole, fraction, rest, e, parts, ⟨some, digits, -⟩, -, -⟩ := decimal
  cases whole with
  | nil =>
    rcases parts with ⟨-, rfl⟩ | parts
    · exact absurd rfl some
    · exact ⟨'.', _, parts, .inr rfl⟩
  | cons c whole =>
    have digit : c.isDigit = true := digits c List.mem_cons_self
    rcases parts with ⟨parts, -⟩ | parts
    · exact ⟨c, _, parts, .inl digit⟩
    · exact ⟨c, _, parts, .inl digit⟩

/-! ### Doubles -/

/-- The words for infinity and not-a-number, in lower case. -/
def words : List String := ["inf", "infinity", "nan"]

/-- A word in either case of letters, or a decimal number. -/
def SpellsMagnitude (cs : List Char) : Prop :=
  String.ofList (cs.map Char.toLower) ∈ words ∨ ∃ d, IsDecimal cs d

/-- What spells a double without its sign, with a sign in front at will. -/
def SpellsDouble (cs : List Char) : Prop :=
  ∃ ds, (cs = ds ∨ cs = '+' :: ds ∨ cs = '-' :: ds) ∧ SpellsMagnitude ds

/-- All words begin with one of two letters. -/
theorem head_of_mem_words {c : Char} {cs : List Char} (word : String.ofList (c :: cs) ∈ words) :
    c = 'i' ∨ c = 'n' := by
  simp only [words, List.mem_cons, List.not_mem_nil, or_false] at word
  rcases word with word | word | word
  all_goals
    have chars := congrArg String.toList word
    rw [String.toList_ofList] at chars
  · exact .inl (List.cons.inj chars).1
  · exact .inl (List.cons.inj chars).1
  · exact .inr (List.cons.inj chars).1

theorem toLower_of_isDigit {c : Char} (digit : c.isDigit) : c.toLower = c := by
  simp only [Char.isDigit, Bool.and_eq_true, decide_eq_true_eq] at digit
  rw [Char.toLower, dif_neg]
  intro upper
  exact absurd (UInt32.le_trans upper.1 digit.2) (by decide)

/-- A decimal number is no word. -/
theorem IsDecimal.not_mem_words {cs : List Char} {d : Decimal} (decimal : IsDecimal cs d) :
    String.ofList (cs.map Char.toLower) ∉ words := by
  obtain ⟨c, ds, rfl, first⟩ := decimal.head
  have lower : c.toLower = c := by
    rcases first with digit | rfl
    · exact toLower_of_isDigit digit
    · decide
  intro word
  rw [List.map_cons, lower] at word
  rcases head_of_mem_words word with rfl | rfl <;> exact absurd first (by decide)

/-- Neither a word nor a decimal number begins with a sign. -/
theorem not_spellsMagnitude {c : Char} {ds : List Char} (sign : c = '+' ∨ c = '-') :
    ¬SpellsMagnitude (c :: ds) := by
  rintro (word | ⟨d, decimal⟩)
  · rcases sign with rfl | rfl <;> exact absurd (head_of_mem_words word) (by decide)
  · obtain ⟨_, _, same, first⟩ := decimal.head
    cases same
    rcases sign with rfl | rfl <;> exact absurd first (by decide)

theorem spellsDouble_cons {c : Char} {ds : List Char} (sign : c = '+' ∨ c = '-') :
    SpellsDouble (c :: ds) ↔ SpellsMagnitude ds := by
  constructor
  · rintro ⟨_, rfl | same | same, spells⟩
    · exact absurd spells (not_spellsMagnitude sign)
    all_goals
      cases same
      exact spells
  · intro spells
    rcases sign with rfl | rfl
    · exact ⟨ds, .inr (.inl rfl), spells⟩
    · exact ⟨ds, .inr (.inr rfl), spells⟩

theorem spellsDouble_unsigned {cs : List Char} (plus : ∀ ds, cs ≠ '+' :: ds)
    (minus : ∀ ds, cs ≠ '-' :: ds) : SpellsDouble cs ↔ SpellsMagnitude cs := by
  constructor
  · rintro ⟨ds, same | same | same, spells⟩
    · exact same ▸ spells
    · exact absurd same (plus ds)
    · exact absurd same (minus ds)
  · exact fun spells => ⟨cs, .inl rfl, spells⟩

end NoonDraw.Text
