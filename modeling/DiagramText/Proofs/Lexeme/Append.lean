import DiagramText.Proofs.Lexeme.Phrase

/-!
# What follows a lexeme

A lexeme is found again where other text follows, as long as that text does not
carry it on.  Each length and each search says which first characters would do
so; a text that begins with none of them leaves it as it was.
-/

namespace DiagramText

namespace Text

/-- A stretch does not grow where the next character is none of its own. -/
theorem takeWhile_append {p : Char → Bool} {s rest : Text}
    (h : rest.Begins fun c => p c = false) : (s ++ rest).takeWhile p = s.takeWhile p := by
  induction s with
  | nil =>
      cases rest with
      | nil => rfl
      | cons c rest => simp [begins_cons.mp h]
  | cons c s ih => simp only [List.cons_append, List.takeWhile_cons, ih]

/-- A stretch that ends within a text ends there whatever follows. -/
theorem takeWhile_append_of_lt {p : Char → Bool} {s : Text} (rest : Text)
    (h : run p s < s.length) : (s ++ rest).takeWhile p = s.takeWhile p := by
  induction s with
  | nil => exact absurd h (by simp)
  | cons c s ih =>
      simp only [List.cons_append, List.takeWhile_cons, run_cons, List.length_cons] at h ⊢
      split at h
      · next hc => rw [if_pos hc, if_pos hc, ih (by omega)]
      · next hc => rw [if_neg hc, if_neg hc]

theorem run_append {p : Char → Bool} {s rest : Text} (h : rest.Begins fun c => p c = false) :
    run p (s ++ rest) = run p s :=
  congrArg List.length (takeWhile_append h)

theorem run_append_of_lt {p : Char → Bool} {s : Text} (rest : Text) (h : run p s < s.length) :
    run p (s ++ rest) = run p s :=
  congrArg List.length (takeWhile_append_of_lt rest h)

/-- What is left after a stretch. -/
theorem drop_run_append (p : Char → Bool) (s rest : Text) :
    (s ++ rest).drop (run p s) = s.drop (run p s) ++ rest :=
  List.drop_append_of_le_length (run_le_length p s)

/-- A mark that is not at the front of a text is not at the front of a longer one either, where
what is added begins with no character of the mark. -/
theorem isPrefixOf_append {mark s rest : Text} (h : rest.Begins fun c => c ∉ mark) :
    mark.isPrefixOf (s ++ rest) = mark.isPrefixOf s := by
  induction mark generalizing s with
  | nil => simp
  | cons m mark ih =>
      cases s with
      | nil =>
          cases rest with
          | nil => rfl
          | cons c rest =>
              have hc : c ≠ m := fun heq => begins_cons.mp h (heq ▸ List.mem_cons_self)
              simp [List.isPrefixOf, hc.symm]
      | cons c s =>
          simp only [List.cons_append, List.isPrefixOf]
          rw [ih (h.imp fun c hc hmem => hc (List.mem_cons_of_mem _ hmem))]

/-- A mark at the front of a text stays there. -/
theorem isPrefixOf_append_of_le {mark s rest : Text} (h : mark.length ≤ s.length) :
    mark.isPrefixOf (s ++ rest) = mark.isPrefixOf s := by
  induction mark generalizing s with
  | nil => simp
  | cons m mark ih =>
      cases s with
      | nil => exact absurd h (by simp)
      | cons c s =>
          simp only [List.cons_append, List.isPrefixOf]
          rw [ih (by simpa using h)]

theorem isPrefixOf_cons_append_of_le {mark s rest : Text} {c : Char} (h : mark.length ≤ s.length + 1) :
    mark.isPrefixOf (c :: (s ++ rest)) = mark.isPrefixOf (c :: s) :=
  isPrefixOf_append_of_le (s := c :: s) h

/-- What a search finds it finds again. -/
theorem find?_append {mark s rest : Text} {k : Nat} (h : find? mark s = some k) :
    find? mark (s ++ rest) = some k := by
  induction s generalizing k with
  | nil =>
      cases mark with
      | nil => cases rest <;> simp_all [find?]
      | cons => simp [find?] at h
  | cons c s ih =>
      have hle := find?_le_length h
      rw [List.length_cons] at hle
      simp only [List.cons_append, find?] at h ⊢
      rw [isPrefixOf_cons_append_of_le (by omega)]
      split at h
      · next hm => rw [if_pos hm, h]
      · next hm =>
          obtain ⟨j, hj, rfl⟩ := Option.map_eq_some_iff.mp h
          rw [if_neg hm, ih hj, Option.map_some]

theorem findUnescaped?_append {mark s rest : Text} {escaped : Bool} {k : Nat}
    (h : findUnescaped? mark escaped s = some k) :
    findUnescaped? mark escaped (s ++ rest) = some k := by
  induction s generalizing k escaped with
  | nil => cases h
  | cons c s ih =>
      have hle := findUnescaped?_le_length h
      rw [List.length_cons] at hle
      simp only [List.cons_append, findUnescaped?] at h ⊢
      rw [isPrefixOf_cons_append_of_le (by omega)]
      split at h
      · next hm => rw [if_pos hm, h]
      · next hm =>
          obtain ⟨j, hj, rfl⟩ := Option.map_eq_some_iff.mp h
          rw [if_neg hm, ih hj, Option.map_some]

end Text

open Text

/-! ## Numbers and booleans -/

theorem fractionLength_append {s rest : Text}
    (h : rest.Begins fun c => c.isDigit = false ∧ c ≠ '.') :
    fractionLength (s ++ rest) = fractionLength s := by
  have hrun : ∀ s, run Char.isDigit (s ++ rest) = run Char.isDigit s :=
    fun _ => run_append (h.imp fun _ hc => hc.1)
  cases s with
  | nil =>
      cases rest with
      | nil => rfl
      | cons c rest => simp [fractionLength, (begins_cons.mp h).2]
  | cons c s =>
      by_cases hc : c = '.'
      · subst hc
        simp only [List.cons_append, fractionLength, hrun]
      · simp [fractionLength, hc]

theorem unsignedLength_append {s rest : Text}
    (h : rest.Begins fun c => c.isDigit = false ∧ c ≠ '.') :
    unsignedLength (s ++ rest) = unsignedLength s := by
  simp only [unsignedLength]
  rw [run_append (h.imp fun _ hc => hc.1), drop_run_append, fractionLength_append h]

/-- A numeral does not grow before anything but a digit or a point. -/
theorem numeralLength_append {s rest : Text}
    (h : rest.Begins fun c => c.isDigit = false ∧ c ≠ '.') (hs : s ≠ []) :
    numeralLength (s ++ rest) = numeralLength s := by
  cases s with
  | nil => exact absurd rfl hs
  | cons c s =>
      have := unsignedLength_append (s := c :: s) h
      simp only [List.cons_append] at this ⊢
      simp only [numeralLength, unsignedLength_append h, this]

/-- Whether a boolean stands at the front is not changed by what is no letter of it. -/
theorem booleanLength_append {s rest : Text}
    (h : rest.Begins fun c => c.isAlphanum = false) :
    booleanLength (s ++ rest) = booleanLength s := by
  unfold booleanLength
  have hletter : ∀ mark : Text, mark.all Char.isAlphanum = true →
      rest.Begins fun c => c ∉ mark := by
    intro mark hmark
    refine h.imp fun c hc hmem => ?_
    have := List.all_eq_true.mp hmark c hmem
    rw [hc] at this
    cases this
  rw [isPrefixOf_append (hletter _ (by decide)), isPrefixOf_append (hletter _ (by decide))]

/-- A literal is found again before anything that may follow a literal, and where none was found
none is. -/
theorem literalLength_append {length : Text → Nat} {s rest : Text}
    (hlength : length (s ++ rest) = length s) (hle : length s ≤ s.length)
    (hend : isLiteralEnd rest = true ∨ length s < s.length) :
    literalLength length (s ++ rest) = literalLength length s := by
  unfold literalLength
  rw [hlength, List.drop_append_of_le_length hle]
  cases hrest : s.drop (length s) with
  | cons c t => rfl
  | nil =>
      have := List.drop_eq_nil_iff.mp hrest
      rcases hend with hend | hend
      · rw [List.nil_append, hend]
        rfl
      · omega

/-! ## Marks and quoted forms -/

/-- The length of an import by its mark: the mark and a path of at least one character. -/
theorem importLength_eq (s : Text) :
    importLength s =
      if "...@".toList.isPrefixOf s then
        if run (!isBlank ·) (s.drop 4) = 0 then 0 else 4 + run (!isBlank ·) (s.drop 4)
      else if ['@'].isPrefixOf s then
        if run (!isBlank ·) (s.drop 1) = 0 then 0 else 1 + run (!isBlank ·) (s.drop 1)
      else 0 := by
  unfold importLength
  split
  · rfl
  · rfl
  · next h₁ h₂ =>
      rw [if_neg, if_neg]
      · intro h
        obtain ⟨t, rfl⟩ := List.isPrefixOf_iff_prefix.mp h
        exact h₂ t rfl
      · intro h
        obtain ⟨t, rfl⟩ := List.isPrefixOf_iff_prefix.mp h
        exact h₁ t rfl

/-- An import ends at a blank. -/
theorem importLength_append {s rest : Text} (h : rest.Begins fun c => isBlank c = true) :
    importLength (s ++ rest) = importLength s := by
  have hrun : ∀ s, run (!isBlank ·) (s ++ rest) = run (!isBlank ·) s :=
    fun _ => run_append (h.imp fun c hc => by simp [hc])
  have hmark : ∀ mark : Text, mark.all (!isBlank ·) = true → rest.Begins fun c => c ∉ mark := by
    intro mark hmark
    refine h.imp fun c hc hmem => ?_
    have := List.all_eq_true.mp hmark c hmem
    rw [hc] at this
    cases this
  have hdrop : ∀ mark : Text, mark.isPrefixOf s = true →
      (s ++ rest).drop mark.length = s.drop mark.length ++ rest := by
    intro mark hpre
    exact List.drop_append_of_le_length (List.isPrefixOf_iff_prefix.mp hpre).length_le
  rw [importLength_eq, importLength_eq, isPrefixOf_append (hmark _ (by decide)),
    isPrefixOf_append (hmark _ (by decide))]
  split
  · next hspread =>
      have := hdrop _ hspread
      simp only [String.length_toList] at this
      rw [show "...@".length = 4 from rfl] at this
      rw [this, hrun]
  · split
    · next hat =>
        have := hdrop _ hat
        simp only [List.length_singleton] at this
        rw [this, hrun]
    · rfl

/-- A character that is not the first of what follows does not become the next one. -/
theorem head?_drop_append {s rest : Text} {n : Nat} {c : Char} (hn : n ≤ s.length)
    (h : rest.head? ≠ some c) :
    ((s ++ rest).drop n).head? = some c ↔ (s.drop n).head? = some c := by
  rw [List.drop_append_of_le_length hn]
  cases s.drop n with
  | nil => simpa using h
  | cons d t => rfl

/-- A connection ends before what is neither a dash nor an arrowhead. -/
theorem connectionLength_append {s rest : Text} (h : rest.Begins fun c => c ≠ '-' ∧ c ≠ '>')
    (hs : s ≠ []) : connectionLength (s ++ rest) = connectionLength s := by
  have hrun : ∀ s, run (· == '-') (s ++ rest) = run (· == '-') s :=
    fun _ => run_append (h.imp fun c hc => by simpa using hc.1)
  have hhead : rest.head? ≠ some '>' := fun hc => (h _ hc).2 rfl
  cases s with
  | nil => exact absurd rfl hs
  | cons c s =>
      rw [List.cons_append]
      unfold connectionLength
      split
      · next heq =>
          obtain ⟨rfl, rfl⟩ := List.cons.inj heq
          simp only [hrun, head?_drop_append (run_le_length _ s) hhead]
      · next heq =>
          obtain ⟨rfl, rfl⟩ := List.cons.inj heq
          have hle : run (· == '-') s + 1 ≤ ('-' :: s).length := by
            have := run_le_length (· == '-') s
            simp only [List.length_cons]
            omega
          simp only [hrun]
          rw [← List.cons_append]
          simp only [head?_drop_append hle hhead]
      · next h₁ h₂ =>
          split
          · next heq =>
              obtain ⟨rfl, rfl⟩ := List.cons.inj heq
              exact absurd rfl (h₁ _)
          · next heq =>
              obtain ⟨rfl, rfl⟩ := List.cons.inj heq
              exact absurd rfl (h₂ _)
          · rfl

/-- A block comment stays one. -/
theorem blockComment_append {s : Text} {lexeme : Lexeme} (rest : Text)
    (h : blockComment s = .ok (some lexeme)) : blockComment (s ++ rest) = .ok (some lexeme) := by
  obtain ⟨hfence, body, hbody, rfl⟩ := blockComment_eq_some.mp h
  have hlong : commentFence.length ≤ s.length :=
    (List.isPrefixOf_iff_prefix.mp hfence).length_le
  refine blockComment_eq_some.mpr ⟨?_, body, ?_, rfl⟩
  · rwa [isPrefixOf_append_of_le hlong]
  · rw [List.drop_append_of_le_length (show 3 ≤ s.length from hlong)]
    exact findUnescaped?_append hbody

/-- A quoted text stays one. -/
theorem quotedText_append {marks : List QuoteMark} {s : Text} {lexeme : Lexeme} (rest : Text)
    (h : quotedText marks s = .ok (some lexeme)) :
    quotedText marks (s ++ rest) = .ok (some lexeme) := by
  obtain ⟨mark, hmem, t, body, rfl, hbody, rfl⟩ := quotedText_eq_some.mp h
  exact quotedText_eq_some.mpr ⟨mark, hmem, t ++ rest, body, rfl, findUnescaped?_append hbody, rfl⟩

/-- A language tag that ends within a text ends there whatever follows. -/
theorem languageTag?_append {s tag : Text} {length : Nat} (rest : Text)
    (h : languageTag? s = some (tag, length)) (hlt : length < s.length) :
    languageTag? (s ++ rest) = some (tag, length) := by
  simp only [languageTag?] at h ⊢
  split at h
  · cases h
  · next htag =>
      obtain ⟨rfl, rfl⟩ : _ ∧ _ := by simpa using h
      have hblanks : run (fun c => c == ' ' || c == '\t') s < s.length := by omega
      have hword : run Char.isAlphanum (s.drop (run (fun c => c == ' ' || c == '\t') s)) <
          (s.drop (run (fun c => c == ' ' || c == '\t') s)).length := by
        simp only [run, List.length_drop] at hlt ⊢
        omega
      rw [run_append_of_lt rest hblanks, drop_run_append, takeWhile_append_of_lt rest hword,
        if_neg htag]

/-- The fence that opens a text is seen in its first three characters. -/
theorem FenceStyle.openingOf?_append {s : Text} (rest : Text) (h : 3 ≤ s.length) :
    openingOf? (s ++ rest) = openingOf? s := by
  unfold openingOf?
  congr 1
  funext style
  refine isPrefixOf_append_of_le (Nat.le_trans ?_ h)
  cases style <;> decide

/-- A code block stays one. -/
theorem codeBlock_append {s : Text} {lexeme : Lexeme} (rest : Text)
    (h : codeBlock s = .ok (some lexeme)) : codeBlock (s ++ rest) = .ok (some lexeme) := by
  obtain ⟨style, language, tag, content, hstyle, htag, hcontent, rfl⟩ := codeBlock_eq_some.mp h
  have hopener := (FenceStyle.openingOf?_prefix hstyle).length_le
  have hlength := languageTag?_le_length htag
  have hclose := find?_le_length hcontent
  have hcloser : 0 < style.closer.length := by cases style <;> decide
  have hfence : 0 < style.opener.length := by cases style <;> decide
  have hpos := languageTag?_pos htag
  simp only [List.length_drop] at hlength hclose
  refine codeBlock_eq_some.mpr ⟨style, language, tag, content, ?_, ?_, ?_, rfl⟩
  · rw [FenceStyle.openingOf?_append rest (by omega), hstyle]
  · rw [List.drop_append_of_le_length hopener]
    refine languageTag?_append rest htag ?_
    simp only [List.length_drop]
    omega
  · rw [List.drop_append_of_le_length (by omega)]
    exact find?_append hcontent

end DiagramText
