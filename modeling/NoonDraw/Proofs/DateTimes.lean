import Mathlib.Algebra.Ring.Nat
import NoonDraw.Instant.Rfc3339

/-!
# Date-times read back

The date of a day is a date of that day (`Date.toDay?_ofDay`).  An instant is written as its date and
its time of day in UTC, and reading the text leads back to the instant
(`Instant.ofRfc3339?_toRfc3339`).

The readers of the parts take their own text from the front of what is left and nothing else.  For a
part whose width is not fixed, such as a year with a sign or a fraction, this depends on what comes
next: no digit may (`DateTimeReader.number_append`).
-/

namespace NoonDraw

open NoonDraw.Text

/-! ### Days and dates -/

namespace Calendar

/-- A year has as many days as its months. -/
theorem yearStart_add_one (year : Int) :
    yearStart (year + 1) = yearStart year + (monthLengths (isLeap year)).sum := by
  rw [yearStart_succ]
  cases isLeap year <;> rfl

/-- A day of a year is one of the days of a month, and comes after the months before. -/
theorem monthAndDay_eq (before : Nat) {lengths : List Nat} {n : Nat} (within : n < lengths.sum) :
    ∃ i length day, lengths[i]? = some length ∧ day < length ∧ n = (lengths.take i).sum + day ∧
      monthAndDay before lengths n = (before + i + 1, day + 1) := by
  induction lengths generalizing before n with
  | nil => cases within
  | cons length rest ih =>
    rw [monthAndDay]
    split
    next first => exact ⟨0, length, n, rfl, first, (Nat.zero_add n).symm, rfl⟩
    next later =>
      rw [List.sum_cons] at within
      obtain ⟨i, l, day, found, lt, sum, isSplit⟩ :=
        ih (before + 1) (n := n - length) (by omega)
      refine ⟨i + 1, l, day, found, lt, ?_, ?_⟩
      · rw [List.take_succ_cons, List.sum_cons]
        omega
      · rw [isSplit]
        congr 1
        omega

end Calendar

namespace Date

open Calendar

/-- The date of a day is a date of that day. -/
theorem toDay?_ofDay (d : Day) : (ofDay d).toDay? = some d := by
  let year := yearOf d.number
  have first : yearStart year ≤ d.number := yearStart_yearOf_le d.number
  have last : d.number < yearStart (year + 1) := lt_yearStart_yearOf_succ d.number
  rw [yearStart_add_one] at last
  have within : (d.number - yearStart year).toNat < (monthLengths (isLeap year)).sum := by omega
  obtain ⟨i, length, day, found, lt, sum, isSplit⟩ := monthAndDay_eq 0 within
  have date : ofDay d = ⟨year, i + 1, day + 1⟩ := by
    rw [ofDay]
    simp only [isSplit, year, Nat.zero_add]
  have valid : (ofDay d).isValid := by
    rw [date, isValid]
    simp only [Nat.add_sub_cancel, found]
    exact decide_eq_true (by omega)
  rw [toDay?, if_pos valid, date]
  simp only [Nat.add_sub_cancel, ← List.sum_eq_foldl_nat]
  congr 2
  omega

theorem isValid_of_toDay? {d : Date} {day : Day} (isDay : d.toDay? = some day) : d.isValid := by
  unfold toDay? at isDay
  split at isDay
  next valid => exact valid
  next => cases isDay

/-- A date that exists has no month after the twelfth, and no day after the thirty-first. -/
theorem le_of_isValid {d : Date} (valid : d.isValid) : d.month ≤ 12 ∧ d.day ≤ 31 := by
  have short : ∀ leap, ∀ length ∈ monthLengths leap, length ≤ 31 := by decide
  unfold isValid at valid
  split at valid
  next length found =>
    obtain ⟨isMonth, rfl⟩ := List.getElem?_eq_some_iff.1 found
    have twelve : (monthLengths (isLeap d.year)).length = 12 := rfl
    have most := short _ _ (List.getElem_mem isMonth)
    have bounds := of_decide_eq_true valid
    omega
  next => cases valid

end Date

/-- A time of day that clocks show: only the last second of a minute may be two seconds long. -/
structure ClockTime.IsValid (c : ClockTime) : Prop where
  /-- There are twenty-four hours. -/
  hour : c.hour ≤ 23
  /-- There are sixty minutes. -/
  minute : c.minute ≤ 59
  /-- There are sixty seconds. -/
  second : c.second ≤ 59
  /-- Nanoseconds after the first second are those of a leap second. -/
  nanos : c.nanos < 1000000000 ∨ c.second = 59 ∧ c.nanos < 2000000000

/-! ### Digits -/

namespace Text.Digits

variable {n width : Nat}

theorem isDecimal_digitChar {d : Nat} (lt : d < 10) : isDecimal (Nat.digitChar d) := by
  have all : ∀ d < 10, isDecimal (Nat.digitChar d) := by decide
  exact all d lt

theorem isDecimal_of_mem_fixedWidth {c : Char} (mem : c ∈ fixedWidth 10 width n) :
    isDecimal c := by
  induction width generalizing n with
  | zero => cases mem
  | succ width ih =>
    rcases List.mem_append.1 mem with earlier | last
    · exact ih earlier
    · rw [List.mem_singleton.1 last]
      exact isDecimal_digitChar (Nat.mod_lt n (by decide))

theorem isDecimal_of_mem_padded {c : Char} (mem : c ∈ padded width n) : isDecimal c := by
  rcases List.mem_append.1 mem with zero | digit
  · rw [(List.mem_replicate.1 zero).2]
    rfl
  · have isDigit := Nat.isDigit_of_mem_toDigits (by decide) (by decide) digit
    rw [Char.isDigit, Bool.and_eq_true, decide_eq_true_iff, decide_eq_true_iff] at isDigit
    exact decide_eq_true isDigit

/-- A number reads back from its decimal digits. -/
theorem value?_decimal (n : Nat) : value? 10 (decimal n) = some n := by
  induction n using Nat.strongRecOn with
  | ind n ih =>
    by_cases small : n < 10
    · rw [decimal, Nat.toDigits_of_lt_base small]
      have digit : digit? 10 (Nat.digitChar n) = some n := digit?_digitChar (by decide) small
      simp [value?, valueFrom?, digit]
    · have split : decimal n = decimal (n / 10) ++ [Nat.digitChar (n % 10)] :=
        Nat.toDigits_of_base_le (by decide) (by omega)
      have front : valueFrom? 10 0 (decimal (n / 10)) = some (n / 10) := ih (n / 10) (by omega)
      rw [split, value?, valueFrom?_append, front, Option.bind_some, valueFrom?,
        digit?_digitChar (by decide) (Nat.mod_lt n (by decide)), Option.bind_some, valueFrom?]
      congr 1
      omega

theorem padded_ne_nil (width n : Nat) : padded width n ≠ [] :=
  List.append_ne_nil_of_right_ne_nil _ Nat.toDigits_ne_nil

theorem value?_padded (width n : Nat) : value? 10 (padded width n) = some n := by
  have zeros : ∀ k, valueFrom? 10 0 (List.replicate k '0') = some 0 := by
    intro k
    induction k with
    | zero => rfl
    | succ k ih => exact ih
  rw [padded, value?, valueFrom?_append, zeros]
  exact value?_decimal n

end Text.Digits

theorem Text.isBlank_of_isDecimal {c : Char} (digit : Digits.isDecimal c) : isBlank c = false := by
  have bounds : '0' ≤ c ∧ c ≤ '9' := of_decide_eq_true digit
  have least : 48 ≤ c.toNat := UInt32.le_iff_toNat_le.1 bounds.1
  have most : c.toNat ≤ 57 := UInt32.le_iff_toNat_le.1 bounds.2
  simp only [isBlank, blankRanges, List.any_cons, List.any_nil, Bool.or_false, Bool.or_eq_false_iff,
    decide_eq_false_iff_not]
  omega

/-! ### Readers -/

namespace DateTimeReader

variable {α β : Type} {cs ds rest : List Char} {n width : Nat}

/-- What is read after a part has been read. -/
theorem bind_eq {p : Reader α} {f : α → Reader β} {a : α} (reads : p cs = some (a, rest)) :
    (p >>= f) cs = f a rest := by
  change (p cs).bind _ = _
  rw [reads]
  rfl

theorem blanks_cons {c : Char} (visible : isBlank c = false) :
    blanks (c :: rest) = some ((), c :: rest) := by
  change some ((), dropBlanks (c :: rest)) = _
  rw [dropBlanks, List.dropWhile_cons_of_neg (by simp [visible])]

theorem blanks_digits (digits : ∀ c ∈ ds, Digits.isDecimal c) (any : ds ≠ []) :
    blanks (ds ++ rest) = some ((), ds ++ rest) := by
  cases ds with
  | nil => exact absurd rfl any
  | cons c ds => exact blanks_cons (isBlank_of_isDecimal (digits c List.mem_cons_self))

theorem separator_cons {c : Char} (visible : isBlank c = false) :
    separator c (c :: rest) = some ((), rest) := by
  rw [separator, bind_eq (blanks_cons visible), mark, if_pos rfl]

/-- Digits are read as the number they denote, if no more may be read or none follows. -/
theorem number_append {width : Option Nat} (digits : ∀ c ∈ ds, Digits.isDecimal c) (any : ds ≠ [])
    (fits : ∀ w ∈ width, ds.length ≤ w)
    (ends : width = some ds.length ∨ rest.takeWhile Digits.isDecimal = [])
    (value : Digits.value? 10 ds = some n) : number width (ds ++ rest) = some (n, rest) := by
  have isEmpty : ds.isEmpty = false := by simpa using any
  cases width with
  | none =>
    have taken : (ds ++ rest).takeWhile Digits.isDecimal = ds := by
      rw [List.takeWhile_append_of_pos digits, ends.resolve_left nofun, List.append_nil]
    simp [number, taken, isEmpty, value]
  | some w =>
    have le : ds.length ≤ w := fits w rfl
    have none : (rest.take (w - ds.length)).takeWhile Digits.isDecimal = [] := by
      rcases ends with same | none
      · rw [Option.some.inj same, Nat.sub_self, List.take_zero, List.takeWhile_nil]
      · rw [← List.head?_eq_none_iff, List.head?_takeWhile, List.head?_take]
        split
        · rfl
        · rw [← List.head?_takeWhile, none, List.head?_nil]
    have taken : ((ds ++ rest).take w).takeWhile Digits.isDecimal = ds := by
      rw [List.take_append, List.take_of_length_le le, List.takeWhile_append_of_pos digits, none,
        List.append_nil]
    simp [number, taken, isEmpty, value]

/-- Digits of a width are read, if no more may be read or none follows. -/
theorem number_fixedWidth {most : Nat} (pos : width ≠ 0) (le : width ≤ most)
    (ends : width = most ∨ rest.takeWhile Digits.isDecimal = [])
    (lt : n < Digits.capacity 10 width) :
    number (some most) (Digits.fixedWidth 10 width n ++ rest) = some (n, rest) := by
  have length := Digits.length_fixedWidth 10 width n
  refine number_append (fun _ => Digits.isDecimal_of_mem_fixedWidth) ?_ ?_ (ends.imp_left ?_)
    (Digits.value?_fixedWidth (by decide) (by decide) lt)
  · exact List.ne_nil_of_length_pos (by omega)
  · rintro w ⟨⟩
    omega
  · rintro rfl
    rw [length]

theorem field_fixedWidth {most : Nat} (le : n ≤ most) (two : most < 100) :
    field most (Digits.fixedWidth 10 2 n ++ rest) = some (n, rest) := by
  have lt : n < Digits.capacity 10 2 := Nat.lt_of_le_of_lt le two
  have any : Digits.fixedWidth 10 2 n ≠ [] := List.cons_ne_nil _ _
  have passes : (guard (n ≤ most) : Reader Unit) rest = some ((), rest) := by
    change (if n ≤ most then pure () else failure : Reader Unit) rest = _
    rw [if_pos le]
    rfl
  rw [field, bind_eq (blanks_digits (fun _ => Digits.isDecimal_of_mem_fixedWidth) any),
    bind_eq (number_fixedWidth (by decide) (Nat.le_refl 2) (.inl rfl) lt), bind_eq passes]
  rfl

theorem year_minus (reads : number none cs = some (n, rest)) :
    year ('-' :: cs) = some (-(n : Int), rest) := by
  rw [year, bind_eq (blanks_cons (by decide)), bind_eq (a := '-' :: cs) rfl]
  change (number none >>= fun n => pure (-(n : Int))) cs = _
  rw [bind_eq reads]
  rfl

theorem year_plus (reads : number none cs = some (n, rest)) :
    year ('+' :: cs) = some ((n : Int), rest) := by
  rw [year, bind_eq (blanks_cons (by decide)), bind_eq (a := '+' :: cs) rfl]
  change (number none >>= fun n => pure (n : Int)) cs = _
  rw [bind_eq reads]
  rfl

theorem year_unsigned {c : Char} (digit : Digits.isDecimal c)
    (reads : number (some 4) (c :: cs) = some (n, rest)) :
    year (c :: cs) = some ((n : Int), rest) := by
  have noSign : year (c :: cs) = (number (some 4) >>= fun n => pure (n : Int)) (c :: cs) := by
    rw [year, bind_eq (blanks_cons (isBlank_of_isDecimal digit)), bind_eq (a := c :: cs) rfl,
      List.head?_cons]
    refine congrFun ?_ _
    split
    next minus =>
      rw [Option.some.inj minus] at digit
      cases digit
    next plus =>
      rw [Option.some.inj plus] at digit
      cases digit
    next => rfl
  rw [noSign, bind_eq reads]
  rfl

/-- A year is read up to the next mark. -/
theorem year_yearChars (y : Int) (ends : rest.takeWhile Digits.isDecimal = []) :
    year (Date.yearChars y ++ rest) = some (y, rest) := by
  rw [Date.yearChars]
  split
  next plain =>
    have lt : y.toNat < Digits.capacity 10 4 := by
      change y.toNat < 10000
      omega
    have reads : number (some 4) (Digits.fixedWidth 10 4 y.toNat ++ rest) = some (y.toNat, rest) :=
      number_fixedWidth (by decide) (Nat.le_refl 4) (.inl rfl) lt
    have same : (y.toNat : Int) = y := by omega
    obtain ⟨c, ds, starts⟩ : ∃ c ds, Digits.fixedWidth 10 4 y.toNat = c :: ds := ⟨_, _, rfl⟩
    have digit : Digits.isDecimal c :=
      Digits.isDecimal_of_mem_fixedWidth (starts ▸ List.mem_cons_self)
    rw [starts, List.cons_append] at reads ⊢
    rw [year_unsigned digit reads, same]
  next signed =>
    have reads : number none (Digits.padded 4 y.natAbs ++ rest) = some (y.natAbs, rest) :=
      number_append (fun _ => Digits.isDecimal_of_mem_padded) (Digits.padded_ne_nil 4 y.natAbs) nofun
        (.inr ends) (Digits.value?_padded 4 y.natAbs)
    rw [List.cons_append]
    split
    next negative =>
      have same : -(y.natAbs : Int) = y := by omega
      rw [year_minus reads, same]
    next positive =>
      have same : (y.natAbs : Int) = y := by omega
      rw [year_plus reads, same]

/-- A date that exists is read. -/
theorem date_toChars {d : Date} (valid : d.isValid) :
    date (d.toChars ++ rest) = some (d, rest) := by
  have hyphen : isBlank '-' = false := by decide
  have ends : ∀ cs, ('-' :: cs).takeWhile Digits.isDecimal = [] := fun cs => rfl
  obtain ⟨month, day⟩ := Date.le_of_isValid valid
  simp only [Date.toChars, List.append_assoc, List.cons_append]
  rw [date, bind_eq (year_yearChars d.year (ends _)), bind_eq (separator_cons hyphen),
    bind_eq (field_fixedWidth month (by decide)), bind_eq (separator_cons hyphen),
    bind_eq (field_fixedWidth day (by decide))]
  rfl

/-- The digits of a fraction are read as so many nanoseconds. -/
theorem fraction_fixedWidth (pos : width ≠ 0) (le : width ≤ 9) (lt : n < Digits.capacity 10 width)
    {nanos : Nat} (exact : n * 10 ^ (9 - width) = nanos) :
    fraction ('.' :: Digits.fixedWidth 10 width n ++ 'Z' :: rest) = some (nanos, 'Z' :: rest) := by
  have reads : number (some 9) (Digits.fixedWidth 10 width n ++ 'Z' :: rest) =
      some (n, 'Z' :: rest) := number_fixedWidth pos le (.inr rfl) lt
  have used : (Digits.fixedWidth 10 width n ++ 'Z' :: rest).length - ('Z' :: rest).length =
      width := by
    rw [List.length_append, Nat.add_sub_cancel, Digits.length_fixedWidth]
  rw [List.cons_append]
  simp only [fraction, reads, used, Option.bind_eq_bind, Option.bind_some, ← exact]
  rfl

/-- A fraction of a second is read as the nanoseconds that it was written for. -/
theorem fraction_chars {nanos : Nat} (lt : nanos < 1000000000) :
    fraction (ClockTime.fraction nanos ++ 'Z' :: rest) = some (nanos, 'Z' :: rest) := by
  have millis : Digits.capacity 10 3 = 1000 := rfl
  have micros : Digits.capacity 10 6 = 1000000 := rfl
  unfold ClockTime.fraction
  split
  next none =>
    rw [none]
    rfl
  split
  next => exact fraction_fixedWidth (by decide) (by decide) (by omega) (by omega)
  split
  next => exact fraction_fixedWidth (by decide) (by decide) (by omega) (by omega)
  next => exact fraction_fixedWidth (by decide) (by decide) lt (by omega)

/-- A time of day that clocks show is read. -/
theorem clockTime_toChars {c : ClockTime} (valid : c.IsValid) :
    clockTime (c.toChars ++ 'Z' :: rest) = some (c, 'Z' :: rest) := by
  obtain ⟨hour, minute, second, nanos⟩ := valid
  have colon : isBlank ':' = false := by decide
  simp only [ClockTime.toChars, List.append_assoc, List.cons_append]
  rw [clockTime, bind_eq (field_fixedWidth hour (by decide)), bind_eq (separator_cons colon),
    bind_eq (field_fixedWidth minute (by decide)), bind_eq (separator_cons colon)]
  obtain ⟨h, m, s, n⟩ := c
  dsimp only at *
  -- a leap second is written as second 60, and read as second 59 with more nanoseconds
  by_cases leap : 1000000000 ≤ n
  · obtain ⟨rfl, most⟩ := nanos.resolve_left (by omega)
    simp only [leap, if_true]
    rw [bind_eq (field_fixedWidth (by decide) (by decide)), bind_eq (fraction_chars (by omega)),
      if_pos rfl, Nat.sub_add_cancel leap]
    rfl
  · have notSixty : s ≠ 60 := by omega
    simp only [leap, if_false]
    rw [bind_eq (field_fixedWidth (by omega) (by decide)), bind_eq (fraction_chars (by omega)),
      if_neg notSixty]
    rfl

/-- A date and a time of day in UTC are read. -/
theorem dateTime_toChars {d : Date} {c : ClockTime} (isDate : d.isValid) (isTime : c.IsValid) :
    dateTime (d.toChars ++ 'T' :: c.toChars ++ ['Z']) = some ((d, c, 0), []) := by
  rw [List.append_assoc, List.cons_append, dateTime, bind_eq (date_toChars isDate),
    bind_eq (a := ()) rfl, bind_eq (clockTime_toChars isTime)]
  rfl

end DateTimeReader

namespace Instant

/-- In UTC an instant has a time of day that clocks show, unless it is after the end of a second that
is not the last of its minute. -/
theorem isValid_clockTime {t : Instant} (shown : t.nanos < 1000000000 ∨ t.seconds % 60 = 59) :
    t.clockTime.IsValid := by
  have most := t.nanos_lt
  constructor <;> simp only [clockTime] <;> omega

/-- An instant is that of its date and its time of day in UTC. -/
theorem ofLocal?_date_clockTime {t : Instant} (inRange : inRange (t.localDay .utc)) :
    ofLocal? t.date t.clockTime 0 = some t := by
  have toDay : t.date.toDay? = some (t.localDay .utc) := Date.toDay?_ofDay _
  have number : (t.localDay .utc).number = t.seconds / 86400 := by simp [localDay, UtcOffset.utc]
  have sameDay : (⟨t.seconds / 86400⟩ : Day) = t.localDay .utc := by rw [← number]
  have seconds : (t.localDay .utc).number * 86400 + t.clockTime.secondOfDay - 0 = t.seconds := by
    simp only [number, ClockTime.secondOfDay, clockTime]
    omega
  have utc : UtcOffset.ofSeconds? 0 = some .utc := rfl
  have made : ofUnix? t.seconds t.nanos = some t := dif_pos t.nanos_lt
  simp only [ofLocal?, toDay, utc, Option.bind_eq_bind, Option.bind_some]
  rw [seconds, sameDay, if_pos ⟨inRange, inRange⟩]
  exact made

/-- An instant within the years that there are is read from the text that it is written as, unless it
is after the end of a second that is not the last of its minute. -/
theorem ofRfc3339?_toRfc3339 {t : Instant} (inRange : inRange (t.localDay .utc))
    (shown : t.nanos < 1000000000 ∨ t.seconds % 60 = 59) : ofRfc3339? t.toRfc3339 = some t := by
  have isDate : t.date.isValid := Date.isValid_of_toDay? (Date.toDay?_ofDay (t.localDay .utc))
  rw [toRfc3339, ofRfc3339?, String.toList_ofList,
    DateTimeReader.dateTime_toChars isDate (isValid_clockTime shown)]
  exact ofLocal?_date_clockTime inRange

end Instant

end NoonDraw
