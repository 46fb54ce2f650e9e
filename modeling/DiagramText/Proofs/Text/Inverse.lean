import DiagramText.Numeral
import DiagramText.Proofs.Lexeme.Length

/-!
# Texts that are read back

A scan finds a quoted text between two marks none of which stands inside it
without a backslash (`Text.findUnescaped?_eq_some`).  Of such a text quoting
restores what unquoting took away (`Text.escape_unescape`), and the decimal text
of a number is read as that number (`Numeral.natural_ofInt`).
-/

namespace DiagramText

namespace Text

/-- The text may stand between two marks: a backslash precedes each mark in it and does not stand
at its end.  `escaped` tells whether a backslash stands right before the text. -/
def Enclosed (mark : Char) : (escaped : Bool) → Text → Prop
  | escaped, [] => escaped = false
  | escaped, c :: s => (c = mark → escaped = true) ∧ Enclosed mark (c == '\\') s

/-- The leftmost mark without a backslash comes after a text that may stand between two marks. -/
theorem findUnescaped?_eq_some {mark : Char} {escaped : Bool} {s : Text} {k : Nat} :
    findUnescaped? [mark] escaped s = some k ↔
      ∃ body rest, s = body ++ mark :: rest ∧ body.length = k ∧ Enclosed mark escaped body := by
  induction s generalizing escaped k with
  | nil => simp [findUnescaped?]
  | cons c s ih =>
      have hprefix : [mark].isPrefixOf (c :: s) = (mark == c) := by
        simp [List.isPrefixOf]
      rw [findUnescaped?, hprefix]
      by_cases hmark : (!escaped && mark == c) = true
      · rw [if_pos hmark]
        simp only [Bool.and_eq_true, Bool.not_eq_true', beq_iff_eq] at hmark
        obtain ⟨rfl, rfl⟩ := hmark
        constructor
        · intro h
          exact ⟨[], s, rfl, Option.some.inj h, rfl⟩
        · rintro ⟨body, rest, hs, rfl, hbody⟩
          cases body with
          | nil => rfl
          | cons d body =>
              obtain ⟨rfl, _⟩ := List.cons.inj hs
              exact absurd (hbody.1 rfl) (by simp)
      · rw [if_neg hmark, Option.map_eq_some_iff]
        simp only [Bool.and_eq_true, Bool.not_eq_true', beq_iff_eq, not_and] at hmark
        constructor
        · rintro ⟨j, hj, rfl⟩
          obtain ⟨body, rest, rfl, rfl, hbody⟩ := ih.mp hj
          refine ⟨c :: body, rest, rfl, rfl, ?_, hbody⟩
          intro hc
          cases escaped with
          | true => rfl
          | false => exact absurd hc.symm (hmark rfl)
        · rintro ⟨body, rest, hs, rfl, hbody⟩
          cases body with
          | nil =>
              obtain ⟨rfl, _⟩ := List.cons.inj hs
              exact absurd rfl (hmark hbody)
          | cons d body =>
              obtain ⟨rfl, rfl⟩ := List.cons.inj hs
              exact ⟨body.length, ih.mpr ⟨body, rest, rfl, rfl, hbody.2⟩, rfl⟩

/-- A backslash goes where a mark follows it. -/
theorem unescape_mark (mark : Char) (s : Text) :
    unescape ('\\' :: mark :: s) [mark] = mark :: unescape s [mark] := by
  simp [unescape, replace, substitute, substituteAfter, List.isPrefixOf]

/-- Everything else stays. -/
theorem unescape_cons {mark c : Char} {s : Text} (h : c = '\\' → s.head? ≠ some mark) :
    unescape (c :: s) [mark] = c :: unescape s [mark] := by
  have hprefix : ['\\', mark].isPrefixOf (c :: s) = false := by
    refine Bool.eq_false_iff.mpr fun hprefix => ?_
    obtain ⟨rest, hrest⟩ := List.isPrefixOf_iff_prefix.mp hprefix
    obtain ⟨hc, rfl⟩ := List.cons.inj hrest
    exact h hc.symm rfl
  simp [unescape, replace, substitute, substituteAfter, hprefix]

/-- Quoting restores the backslashes that unquoting takes away from a text between two marks. -/
theorem escape_unescape {mark : Char} (hmark : mark ≠ '\\') {s : Text}
    (h : Enclosed mark false s) : escape (unescape s [mark]) [mark] = s := by
  rw [escape_singleton]
  generalize hn : s.length = n
  induction n using Nat.strongRecOn generalizing s with
  | ind n ih =>
      cases s with
      | nil => rfl
      | cons c s =>
          obtain ⟨hc, hs⟩ := h
          have hc : c ≠ mark := fun heq => Bool.false_ne_true (hc heq)
          subst hn
          by_cases hescape : c = '\\'
          · subst hescape
            cases s with
            | nil => exact absurd hs (by simp [Enclosed])
            | cons d s =>
                by_cases hd : d = mark
                · subst hd
                  have hs' : Enclosed d false s := by
                    rw [← beq_eq_false_iff_ne.mpr hmark]
                    exact hs.2
                  rw [unescape_mark, List.flatMap_cons, if_pos rfl,
                    ih s.length (by simp only [List.length_cons]; omega) hs' rfl]
                  rfl
                · have hs' : Enclosed mark false (d :: s) := ⟨fun heq => absurd heq hd, hs.2⟩
                  rw [unescape_cons (by simpa using hd), List.flatMap_cons, if_neg hc,
                    ih (d :: s).length (by simp) hs' rfl]
                  rfl
          · have hs' : Enclosed mark false s := by
              rw [← beq_eq_false_iff_ne.mpr hescape]
              exact hs
            rw [unescape_cons fun heq => absurd heq hescape, List.flatMap_cons, if_neg hc,
              ih s.length (by simp) hs' rfl]
            rfl

/-- Quoting the value of a text between two marks gives the text again. -/
theorem quote_unquote? {mark : Char} (hmark : mark ≠ '\\') {body : Text}
    (h : Enclosed mark false body) :
    (((unquote? (mark :: body ++ [mark])).getD []).quote [mark]) = mark :: body ++ [mark] := by
  have hvalue : (unquote? (mark :: body ++ [mark])).getD [] = unescape body [mark] := by
    simp [unquote?]
  rw [hvalue, quote, escape_unescape hmark h]
  rfl

end Text

/-- A row of digits stands for less than the power of ten with as many zeros. -/
theorem decimalValue_lt {digits : Text} (h : digits.all Char.isDigit = true) :
    decimalValue digits < Nat.pow 10 digits.length := by
  have hvalue : ∀ (digits : Text) (value : Nat), digits.all Char.isDigit = true →
      digits.foldl (fun value c => 10 * value + (c.toNat - '0'.toNat)) value <
        (value + 1) * Nat.pow 10 digits.length := by
    intro digits
    induction digits with
    | nil => simp
    | cons c digits ih =>
        intro value hall
        simp only [List.all_cons, Bool.and_eq_true] at hall
        have hdigit : c.toNat - '0'.toNat ≤ 9 := by
          have := hall.1
          simp only [Char.isDigit, Bool.and_eq_true, decide_eq_true_eq, UInt32.le_iff_toNat_le] at this
          have hupper : c.toNat ≤ 57 := this.2
          have hzero : '0'.toNat = 48 := rfl
          omega
        refine Nat.lt_of_lt_of_le (ih _ hall.2) ?_
        have hsucc : Nat.pow 10 (digits.length + 1) = Nat.pow 10 digits.length * 10 := rfl
        rw [List.length_cons, hsucc, ← Nat.mul_assoc, Nat.mul_right_comm]
        refine Nat.mul_le_mul_right _ ?_
        change 10 * value + (c.toNat - '0'.toNat) + 1 ≤ (value + 1) * 10
        omega
  simpa [decimalValue] using hvalue digits 0 h

namespace Numeral

/-- The value of a row of digits is read back from its decimal text, which is no longer. -/
theorem natural_ofInt {digits : Text} {value : Nat} (hdigits : digits ≠ [])
    (hall : digits.all Char.isDigit = true) (h : natural digits = .ok value) :
    natural (Text.ofInt value) = .ok value := by
  have hshort : (Nat.toDigits 10 value).length ≤ digits.length := by
    refine (Nat.length_toDigits_le_iff (by decide) (List.length_pos_iff.mpr hdigits)).mpr ?_
    have hvalue : decimalValue digits = value := by
      unfold natural at h
      split at h
      · cases h
      · exact Except.ok.inj h
    exact hvalue ▸ decimalValue_lt hall
  have hlimit : ¬ digitLimit < digits.length := by
    intro hlong
    rw [natural, if_pos hlong] at h
    cases h
  have hlimit' : ¬ digitLimit < (Text.ofInt value).length := by
    have : Text.ofInt value = Nat.toDigits 10 value := rfl
    rw [this]
    omega
  rw [natural, if_neg hlimit']
  exact congrArg _ Nat.ofDigitChars_ten_toDigits

end Numeral

/-- The decimal text of a number is a row of digits. -/
theorem Text.ofInt_all_isDigit (value : Nat) : (Text.ofInt value).all Char.isDigit = true :=
  List.all_eq_true.mpr fun _ hc => Nat.isDigit_of_mem_toDigits (by decide) (by decide) hc

theorem Text.ofInt_ne_nil (value : Nat) : Text.ofInt value ≠ [] :=
  Nat.toDigits_ne_nil

end DiagramText
