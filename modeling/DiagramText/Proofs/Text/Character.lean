import DiagramText.Lexeme.Scan

/-!
# Classes of characters

The lexical rules tell white space from the characters of names and labels, and
digits from both.  The classes are tables of ranges, so that two of them share
no character is a matter of their ranges (`Charset.disjoint`).
-/

namespace DiagramText

/-- Whether no range of the one set meets a range of the other. -/
def Charset.disjoint (a b : Charset) : Bool :=
  a.all fun r => b.all fun t => r.2 < t.1 || t.2 < r.1

/-- A character of one of two disjoint sets is not in the other. -/
theorem Charset.not_contains_of_disjoint {a b : Charset} (h : a.disjoint b = true) {c : Char}
    (hc : a.contains c = true) : b.contains c = false := by
  simp only [disjoint, List.all_eq_true, Bool.or_eq_true, decide_eq_true_eq] at h
  obtain ⟨r, hr, hcr⟩ := List.any_eq_true.mp hc
  refine List.any_eq_false.mpr fun t ht => ?_
  have := h r hr t ht
  simp only [Bool.and_eq_true, decide_eq_true_eq] at hcr ⊢
  omega

/-- No character is blank and stands in a word. -/
theorem blankRanges_disjoint_wordRanges : blankRanges.disjoint wordRanges = true := by
  decide +kernel

/-- The letters and digits of ASCII and the underscore. -/
def plainWordRanges : Charset :=
  [(0x30, 0x39), (0x41, 0x5a), (0x5f, 0x5f), (0x61, 0x7a)]

/-- The characters of a plain word are those of its ranges. -/
theorem plainWordRanges_contains (c : Char) : plainWordRanges.contains c = isPlainWord c := by
  have hunderscore : c = '_' ↔ c.toNat = 0x5f := Char.toNat_inj.symm
  rw [Bool.eq_iff_iff]
  delta isPlainWord Char.isAlphanum Char.isAlpha Char.isUpper Char.isLower Char.isDigit
  simp only [Charset.contains, plainWordRanges, UInt32.le_iff_toNat_le, List.any_cons,
    List.any_nil, Bool.or_false, Bool.or_eq_true, Bool.and_eq_true, decide_eq_true_eq,
    beq_iff_eq, hunderscore, ge_iff_le]
  change _ ↔ (((65 ≤ c.toNat ∧ c.toNat ≤ 90) ∨ (97 ≤ c.toNat ∧ c.toNat ≤ 122)) ∨
    (48 ≤ c.toNat ∧ c.toNat ≤ 57)) ∨ _
  omega

/-- White space is no part of a word. -/
theorem not_isPlainWord_of_isBlank {c : Char} (h : isBlank c = true) :
    isPlainWord c = false := by
  rw [← plainWordRanges_contains]
  exact Charset.not_contains_of_disjoint (a := blankRanges) (by decide) h

/-- A blank character stands in no word. -/
theorem not_isWord_of_isBlank {c : Char} (h : isBlank c = true) : isWord c = false := by
  unfold isWord
  split
  · exact not_isPlainWord_of_isBlank h
  · exact Charset.not_contains_of_disjoint blankRanges_disjoint_wordRanges h

/-- The words of lists are words. -/
theorem isWord_of_isPlainWord {c : Char} (h : isPlainWord c = true) : isWord c = true := by
  have hsmall : c.toNat < 0x80 := by
    rw [← plainWordRanges_contains] at h
    simp only [Charset.contains, plainWordRanges, List.any_cons, List.any_nil, Bool.or_false,
      Bool.or_eq_true, Bool.and_eq_true, decide_eq_true_eq] at h
    omega
  unfold isWord
  rw [if_pos hsmall]
  exact h

theorem isPlainWord_of_isDigit {c : Char} (h : c.isDigit = true) : isPlainWord c = true := by
  simp [isPlainWord, Char.isAlphanum, h]

/-- A letter or a digit stands in a plain word. -/
theorem isPlainWord_of_isAlphanum {c : Char} (h : c.isAlphanum = true) :
    isPlainWord c = true := by
  simp [isPlainWord, h]

/-- What does not stand in a plain word is no digit. -/
theorem not_isDigit_of_not_isPlainWord {c : Char} (h : isPlainWord c = false) :
    c.isDigit = false := by
  refine Bool.eq_false_iff.mpr fun hdigit => ?_
  rw [isPlainWord_of_isDigit hdigit] at h
  cases h

/-- What does not stand in a plain word is neither letter nor digit. -/
theorem not_isAlphanum_of_not_isPlainWord {c : Char} (h : isPlainWord c = false) :
    c.isAlphanum = false := by
  refine Bool.eq_false_iff.mpr fun halphanum => ?_
  rw [isPlainWord_of_isAlphanum halphanum] at h
  cases h

/-- Blanks within a line are blank. -/
theorem isBlank_of_isInlineBlank {c : Char} (h : isInlineBlank c = true) : isBlank c = true := by
  simp only [isInlineBlank, Bool.and_eq_true] at h
  exact h.1

/-- A line break is blank. -/
theorem isBlank_of_isBreak {c : Char} (h : isBreak c = true) : isBlank c = true := by
  simp only [isBreak, Bool.or_eq_true, beq_iff_eq] at h
  rcases h with rfl | rfl <;> decide

end DiagramText
