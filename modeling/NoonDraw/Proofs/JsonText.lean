import NoonDraw.Json

/-!
# Texts read back from JSON

Writing a text as a JSON string escapes what must be escaped, and reading the string gives the text
back, whatever characters it has: every character is read from what it is written as
(`JsonReader.exists_piece`), and no closing quote is taken for another (`JsonReader.string?_escaped`).

So does an object whose members are texts (`Json.ofText?_texts`).  Its members are read in the order
in which they are written, and the text is longer than the number of them, which is what bounds the
reading.
-/

namespace NoonDraw

/-- A member of an object that is a text. -/
def Json.textMember (m : String × String) : Option String × Json := (some m.1, .string (some m.2))

namespace JsonReader

open Json

variable {rest : List Char}

/-! ### Strings -/

theorem hex?_digitChar {d : Nat} (lt : d < 16) : hex? (Nat.digitChar d) = some d := by
  have all : ∀ d < 16, hex? (Nat.digitChar d) = some d := by decide
  exact all d lt

/-- A control character is read from its code. -/
theorem unit?_control {n : Nat} (control : n < 0x20) :
    unit? '0' '0' (Nat.digitChar (n / 16)) (Nat.digitChar (n % 16)) = some n := by
  have zero : hex? '0' = some 0 := rfl
  have high := hex?_digitChar (d := n / 16) (by omega)
  have low := hex?_digitChar (d := n % 16) (by omega)
  simp only [unit?, zero, high, low, Option.bind_eq_bind, Option.bind_some, Option.pure_def]
  congr 1
  omega

/-- A code unit below the surrogates is a character. -/
theorem characters?_unit {u : Nat} (below : u < 0xD800) (ps : List Piece) :
    characters? (.unit u :: ps) = (characters? ps).map (Char.ofNat u :: ·) := by
  have low : ¬ 0xD800 ≤ u := by omega
  cases ps with
  | nil => simp [characters?, low]
  | cons p ps => cases p <;> simp [characters?, low]

/-- A character that need not be escaped is read as it is. -/
theorem pieces?_visible {c : Char} (notQuote : c ≠ '"') (notBackslash : c ≠ '\\')
    (visible : ¬ c.toNat < 0x20) (cs : List Char) :
    pieces? (c :: cs) = (pieces? cs).map fun x => (.char c :: x.1, x.2) := by
  rw [pieces?.eq_def]
  split
  next same => exact absurd (List.cons.inj same).1 notQuote
  next same => exact absurd (List.cons.inj same).1 notBackslash
  next same => exact absurd (List.cons.inj same).1 notBackslash
  next d ds _ _ _ same =>
    obtain ⟨rfl, rfl⟩ := List.cons.inj same
    rw [if_neg (by simp [notBackslash, visible])]
    cases pieces? cs <;> rfl
  next same => cases same

/-- What a character is written as is one piece of a string, and stands for the character. -/
theorem exists_piece (c : Char) : ∃ p,
    (∀ cs, pieces? (escape c ++ cs) = (pieces? cs).map fun x => (p :: x.1, x.2)) ∧
      ∀ ps, characters? (p :: ps) = (characters? ps).map (c :: ·) := by
  unfold escape
  split
  case h_8 notQuote notBackslash _ _ _ _ _ =>
    split
    next control =>
      refine ⟨.unit c.toNat, fun cs => ?_, fun ps => ?_⟩
      · cases h : pieces? cs <;> simp [pieces?, unit?_control control, h]
      · rw [characters?_unit (by omega), Char.ofNat_toNat]
    next visible =>
      exact ⟨.char c, pieces?_visible notQuote notBackslash visible, fun ps => rfl⟩
  all_goals
    exact ⟨.char _, fun cs => by cases h : pieces? cs <;> simp [pieces?, escaped?, h], fun ps => rfl⟩

/-- A written string is read to its closing quote, and has the characters that were written. -/
theorem string?_escaped (s : String) :
    string? (s.toList.flatMap escape ++ '"' :: rest) = some (some s, rest) := by
  have pieces : ∀ cs : List Char, ∃ ps,
      pieces? (cs.flatMap escape ++ '"' :: rest) = some (ps, rest) ∧
        characters? ps = some cs := by
    intro cs
    induction cs with
    | nil => exact ⟨[], rfl, rfl⟩
    | cons c cs ih =>
      obtain ⟨p, isPiece, stands⟩ := exists_piece c
      obtain ⟨ps, read, characters⟩ := ih
      refine ⟨p :: ps, ?_, ?_⟩
      · rw [List.flatMap_cons, List.append_assoc, isPiece, read, Option.map_some]
      · rw [stands, characters, Option.map_some]
  obtain ⟨ps, read, characters⟩ := pieces s.toList
  simp [string?, read, characters]

/-! ### Objects of texts -/

theorem skip_cons {c : Char} (part : isSpace c = false) : skip (c :: rest) = c :: rest :=
  List.dropWhile_cons_of_neg (by simp [part])

theorem value?_quote (fuel : Nat) (s : String) :
    value? (fuel + 1) (quote s ++ rest) = some (.string (some s), rest) := by
  simp only [quote, List.cons_append, List.append_assoc, List.nil_append, value?]
  rw [skip_cons (by decide)]
  simp only [string?_escaped, Option.map_some]

/-- A member that is a text is read, whether it is the last one or others follow. -/
theorem members?_textMember (fuel : Nat) (m : String × String) :
    (∀ rest, members? (fuel + 2) (quote m.1 ++ ':' :: quote m.2 ++ '\x7d' :: rest) =
      some ([textMember m], rest)) ∧
    ∀ cs, members? (fuel + 2) (quote m.1 ++ ':' :: quote m.2 ++ ',' :: cs) =
      (members? (fuel + 1) cs).map fun x => (textMember m :: x.1, x.2) := by
  have shape (cs : List Char) : quote m.1 ++ ':' :: quote m.2 ++ cs =
      '"' :: (m.1.toList.flatMap escape ++ '"' :: ':' :: (quote m.2 ++ cs)) := by
    simp [quote]
  constructor
  all_goals
    intro cs
    rw [shape, members?, skip_cons (by decide)]
    simp only [string?_escaped, Option.bind_eq_bind, Option.bind_some]
    rw [skip_cons (by decide)]
    simp only [value?_quote, Option.bind_some]
    rw [skip_cons (by decide)]
  · rfl
  · cases h : members? (fuel + 1) cs <;> simp [h, textMember]

/-- The members of an object of texts are read up to its end. -/
theorem members?_texts {m : String × String} {ms : List (String × String)} {fuel : Nat}
    (enough : ms.length ≤ fuel) :
    members? (fuel + 2)
        (commas (memberChars ((m :: ms).map textMember)) ++ '\x7d' :: rest) =
      some ((m :: ms).map textMember, rest) := by
  induction ms generalizing m fuel with
  | nil => exact (members?_textMember fuel m).1 rest
  | cons n ms ih =>
    have written : commas (memberChars ((m :: n :: ms).map textMember)) =
      (quote m.1 ++ ':' :: quote m.2) ++
        ',' :: commas (memberChars ((n :: ms).map textMember)) := rfl
    rw [List.length_cons] at enough
    obtain ⟨fuel, rfl⟩ : ∃ less, fuel = less + 1 := ⟨fuel - 1, by omega⟩
    rw [written, List.append_assoc, List.cons_append, (members?_textMember _ m).2, ih (by omega)]
    rfl

end JsonReader

namespace Json

open JsonReader

/-- The text of members is no shorter than the number of them. -/
theorem length_le_commas (ms : List (Option String × Json)) :
    ms.length ≤ (commas (memberChars ms)).length := by
  induction ms with
  | nil => exact Nat.zero_le _
  | cons m ms ih =>
    cases ms with
    | nil => simp [memberChars, commas, quote]
    | cons n ms =>
      have longer : (commas (memberChars (m :: n :: ms))).length =
          (quote (m.1.getD "") ++ ':' :: m.2.toChars).length + 1 +
            (commas (memberChars (n :: ms))).length := by
        simp [memberChars, commas]
        omega
      rw [List.length_cons, longer]
      omega

/-- An object whose members are texts is read from what it is written as. -/
theorem ofText?_texts (ms : List (String × String)) :
    ofText? (object (ms.map textMember)).toText = some (object (ms.map textMember)) := by
  cases ms with
  | nil => rfl
  | cons m ms =>
    have least := length_le_commas ((m :: ms).map textMember)
    have chars : (object ((m :: ms).map textMember)).toText.toList =
      '\x7b' :: (commas (memberChars ((m :: ms).map textMember)) ++ ['\x7d']) := String.toList_ofList
    have members {fuel : Nat} (enough : ms.length ≤ fuel) :
        members? (fuel + 2) (commas (memberChars ((m :: ms).map textMember)) ++ ['\x7d']) =
          some ((m :: ms).map textMember, []) := members?_texts enough
    -- a member starts with a quote, so the object is not taken for the empty one
    obtain ⟨cs, starts⟩ : ∃ cs, commas (memberChars ((m :: ms).map textMember)) = '"' :: cs := by
      cases ms <;> exact ⟨_, rfl⟩
    rw [starts] at least members chars
    rw [List.length_map, List.length_cons, List.length_cons] at least
    have length : ('\x7b' :: ('"' :: cs ++ ['\x7d'])).length = cs.length + 1 + 2 := by simp
    have read : value? (cs.length + 1 + 2 + 1) ('\x7b' :: ('"' :: cs ++ ['\x7d'])) =
        some (object ((m :: ms).map textMember), []) := by
      rw [value?, skip_cons (by decide)]
      simp only [List.cons_append, skip_cons (c := '"') (by decide)]
      exact congrArg (Option.map _) (members (by omega))
    rw [ofText?, ← String.length_toList, chars, length, read]
    rfl

end Json

end NoonDraw
