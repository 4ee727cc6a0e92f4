/-!
# Blank characters

The characters with the Unicode property White_Space, and trimming by it.

`trim_trim` says that a trimmed text has nothing left to trim.
-/

namespace NoonDraw.Text

/-- The ranges of code points with the property White_Space. -/
def blankRanges : List (Nat × Nat) :=
  [(0x9, 0xD), (0x20, 0x20), (0x85, 0x85), (0xA0, 0xA0), (0x1680, 0x1680), (0x2000, 0x200A),
    (0x2028, 0x2029), (0x202F, 0x202F), (0x205F, 0x205F), (0x3000, 0x3000)]

/-- Whether a character has the property White_Space. -/
def isBlank (c : Char) : Bool := blankRanges.any fun r => r.1 ≤ c.toNat ∧ c.toNat ≤ r.2

/-- Drops the blanks at the front. -/
def dropBlanks (cs : List Char) : List Char := cs.dropWhile isBlank

/-- Drops the blanks at both ends. -/
def trimBlanks (cs : List Char) : List Char := (dropBlanks (dropBlanks cs).reverse).reverse

/-- A text without the blanks at its ends. -/
def trim (s : String) : String := String.ofList (trimBlanks s.toList)

theorem dropBlanks_idem (cs : List Char) : dropBlanks (dropBlanks cs) = dropBlanks cs := by
  induction cs with
  | nil => rfl
  | cons c cs ih =>
    by_cases h : isBlank c <;> simp_all [dropBlanks]

/-- Blanks dropped at the back leave the front alone. -/
theorem dropBlanks_reverse_dropBlanks {cs : List Char} (h : dropBlanks cs = cs) :
    dropBlanks (dropBlanks cs.reverse).reverse = (dropBlanks cs.reverse).reverse := by
  obtain ⟨ps, hps⟩ : ∃ ps, ps ++ dropBlanks cs.reverse = cs.reverse := List.dropWhile_suffix _
  have hcs : cs = (dropBlanks cs.reverse).reverse ++ ps.reverse := by
    rw [← List.reverse_append, hps, List.reverse_reverse]
  generalize (dropBlanks cs.reverse).reverse = front at hcs ⊢
  match front with
  | [] => rfl
  | c :: front =>
    by_cases hc : isBlank c
    · rw [hcs, List.cons_append, dropBlanks, List.dropWhile_cons_of_pos hc] at h
      have := congrArg List.length h
      have hle := (List.dropWhile_sublist (p := isBlank) (l := front ++ ps.reverse)).length_le
      simp only [List.length_cons] at this
      omega
    · simp [dropBlanks, hc]

theorem trimBlanks_idem (cs : List Char) : trimBlanks (trimBlanks cs) = trimBlanks cs := by
  have h₁ := dropBlanks_reverse_dropBlanks (dropBlanks_idem cs)
  unfold trimBlanks
  rw [h₁, List.reverse_reverse, dropBlanks_idem]

/-- A trimmed text has no blanks at its ends. -/
theorem trim_trim (s : String) : trim (trim s) = trim s := by
  simp [trim, trimBlanks_idem]

end NoonDraw.Text
