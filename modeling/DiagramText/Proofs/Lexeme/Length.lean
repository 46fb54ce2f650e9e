import DiagramText.Proofs.Outcome

/-!
# What a scan finds

The recognisers of a mode are asked in order, so a scan gives the lexeme of the
first one that finds anything, all before it having found nothing
(`firstOf_cons_eq_some`).  Whatever is found lies within the text ahead, and
where anything is ahead it has a length of its own (`Mode.scan_bounds`): this
is what makes every reading advance.
-/

namespace DiagramText

namespace Text

/-- Whether the text is empty or begins with a character that satisfies `p`. -/
def Begins (p : Char → Prop) (s : Text) : Prop :=
  ∀ c, s.head? = some c → p c

theorem Begins.nil {p : Char → Prop} : Begins p [] :=
  fun _ h => by cases h

/-- What a text that is not empty begins with is said of its first character. -/
theorem begins_cons {p : Char → Prop} {c : Char} {s : Text} : Begins p (c :: s) ↔ p c := by
  simp [Begins]

/-- A weaker condition on the first character holds, too. -/
theorem Begins.imp {p q : Char → Prop} {s : Text} (h : Begins p s) (hpq : ∀ c, p c → q c) :
    Begins q s :=
  fun c hc => hpq c (h c hc)

/-- A run ends within the text. -/
theorem run_le_length (p : Char → Bool) (s : Text) : s.run p ≤ s.length :=
  (List.takeWhile_prefix p).length_le

/-- Leaving out a stretch is dropping its characters. -/
theorem drop_run (p : Char → Bool) (s : Text) : s.drop (s.run p) = s.dropWhile p := by
  induction s with
  | nil => rfl
  | cons c s ih =>
      by_cases hc : p c
      · simpa [run, hc] using ih
      · simp [run, hc]

@[simp] theorem run_nil (p : Char → Bool) : run p [] = 0 := rfl

/-- A run goes on while its characters are wanted. -/
theorem run_cons (p : Char → Bool) (c : Char) (s : Text) :
    run p (c :: s) = if p c then run p s + 1 else 0 := by
  by_cases hc : p c <;> simp [run, hc]

/-- A mark that is found stands within the text. -/
theorem find?_le_length {mark s : Text} {k : Nat} (h : find? mark s = some k) :
    k + mark.length ≤ s.length := by
  induction s generalizing k with
  | nil =>
      cases mark with
      | nil => simp [find?] at h; simp [← h]
      | cons => simp [find?] at h
  | cons c s ih =>
      by_cases hm : mark.isPrefixOf (c :: s)
      · have hk : k = 0 := by simpa [find?, hm] using h.symm
        have := (List.isPrefixOf_iff_prefix.mp hm).length_le
        omega
      · obtain ⟨j, hj, rfl⟩ : ∃ j, find? mark s = some j ∧ j + 1 = k := by
          simpa [find?, hm] using h
        have := ih hj
        simp only [List.length_cons]
        omega

/-- A mark that is found unescaped stands within the text. -/
theorem findUnescaped?_le_length {mark s : Text} {escaped : Bool} {k : Nat}
    (h : findUnescaped? mark escaped s = some k) : k + mark.length ≤ s.length := by
  induction s generalizing k escaped with
  | nil => simp [findUnescaped?] at h
  | cons c s ih =>
      by_cases hm : (!escaped && mark.isPrefixOf (c :: s)) = true
      · have hk : k = 0 := by simpa [findUnescaped?, hm] using h.symm
        have hpre : mark.isPrefixOf (c :: s) := by simp_all
        have := (List.isPrefixOf_iff_prefix.mp hpre).length_le
        omega
      · obtain ⟨j, hj, rfl⟩ : ∃ j, findUnescaped? mark (c == '\\') s = some j ∧ j + 1 = k := by
          simpa [findUnescaped?, hm] using h
        have := ih hj
        simp only [List.length_cons]
        omega

end Text

/-- A line break ends within the text. -/
theorem breakLength_le_length (s : Text) : breakLength s ≤ s.length := by
  unfold breakLength
  split <;> simp

/-- A terminator ends within the text. -/
theorem terminatorLength_le_length (s : Text) : terminatorLength s ≤ s.length := by
  unfold terminatorLength
  split
  · simp
  · exact breakLength_le_length s

/-- A line comment ends within the text. -/
theorem commentLength_le_length (s : Text) : commentLength s ≤ s.length := by
  unfold commentLength
  split
  · next rest =>
      have hbody := Text.run_le_length (!isBreak ·) rest
      have hbreak := breakLength_le_length (rest.drop (Text.run (!isBreak ·) rest))
      simp only [List.length_drop, List.length_cons] at *
      omega
  · simp

/-- An import ends within the text. -/
theorem importLength_le_length (s : Text) : importLength s ≤ s.length := by
  unfold importLength
  split
  · next rest =>
      have := Text.run_le_length (!isBlank ·) rest
      simp only [List.length_cons]
      split <;> omega
  · next rest =>
      have := Text.run_le_length (!isBlank ·) rest
      simp only [List.length_cons]
      split <;> omega
  · simp

/-- A character at the front of what is left after `n` others lies within the text. -/
theorem lt_length_of_head?_drop {s : Text} {n : Nat} {c : Char}
    (h : (s.drop n).head? = some c) : n < s.length := by
  rcases Nat.lt_or_ge n s.length with hn | hn
  · exact hn
  · simp [List.drop_eq_nil_of_le hn] at h

/-- A connection ends within the text. -/
theorem connectionLength_le_length (s : Text) : connectionLength s ≤ s.length := by
  unfold connectionLength
  split
  · next rest =>
      have hrun := Text.run_le_length (· == '-') rest
      simp only [List.length_cons]
      split
      · omega
      · split
        · next hhead =>
            have := lt_length_of_head?_drop hhead
            omega
        · omega
  · next rest =>
      have hrun := Text.run_le_length (· == '-') rest
      simp only [List.length_cons]
      split
      · next hhead =>
          have := lt_length_of_head?_drop hhead
          simp only [List.length_cons] at this
          omega
      · split <;> omega
  · simp

namespace Phrase

variable (p : Phrase)

/-- A phrase ends within the text, behind what is pending. -/
theorem extent_le_length (pending : Nat) (s : Text) :
    p.extent pending s ≤ pending + s.length := by
  fun_induction extent p pending s <;> simp only [List.length_cons, List.length_nil] at * <;>
    omega

theorem length_le_length (s : Text) : p.length s ≤ s.length := by
  unfold length
  have := p.extent_le_length 0 s
  split <;> omega

end Phrase

/-- A fraction ends within the text. -/
theorem fractionLength_le_length (s : Text) : fractionLength s ≤ s.length := by
  unfold fractionLength
  split
  · next rest =>
      have := Text.run_le_length Char.isDigit rest
      simp only [List.length_cons]
      split <;> omega
  · simp

/-- A numeral without a sign ends within the text. -/
theorem unsignedLength_le_length (s : Text) : unsignedLength s ≤ s.length := by
  have hrun := Text.run_le_length Char.isDigit s
  have hfraction := fractionLength_le_length (s.drop (Text.run Char.isDigit s))
  simp only [List.length_drop] at hfraction
  simp only [unsignedLength]
  split <;> omega

/-- A numeral ends within the text. -/
theorem numeralLength_le_length (s : Text) : numeralLength s ≤ s.length := by
  unfold numeralLength
  split
  · next c rest =>
      have hsigned := unsignedLength_le_length rest
      have hunsigned := unsignedLength_le_length (c :: rest)
      simp only [List.length_cons] at *
      split
      · split <;> omega
      · omega
  · simp

/-- A boolean ends within the text. -/
theorem booleanLength_le_length (s : Text) : booleanLength s ≤ s.length := by
  unfold booleanLength
  split
  · next h => simpa using (List.isPrefixOf_iff_prefix.mp h).length_le
  · split
    · next h => simpa using (List.isPrefixOf_iff_prefix.mp h).length_le
    · simp

/-- A literal ends within the text if what it is made of does. -/
theorem literalLength_le_length {length : Text → Nat} (h : ∀ s, length s ≤ s.length)
    (s : Text) : literalLength length s ≤ s.length := by
  unfold literalLength
  split
  · exact h s
  · simp

namespace Recogniser

/-- Where there is no recogniser nothing is found. -/
theorem firstOf_nil_ne_some {s : Text} {lexeme : Lexeme} :
    firstOf [] s ≠ .ok (some lexeme) := by
  simp [firstOf]

/-- The first recogniser finds the lexeme, or it finds nothing and another one does. -/
theorem firstOf_cons_eq_some {recogniser : Recogniser} {others : List Recogniser} {s : Text}
    {lexeme : Lexeme} :
    firstOf (recogniser :: others) s = .ok (some lexeme) ↔
      recogniser s = .ok (some lexeme) ∨
        (recogniser s = .ok none ∧ firstOf others s = .ok (some lexeme)) := by
  simp only [firstOf]
  split <;> simp_all

/-- A recogniser by length finds what has a length. -/
theorem ofLength_eq_some {kind : TokenKind} {length : Text → Nat} {s : Text} {lexeme : Lexeme} :
    ofLength kind length s = .ok (some lexeme) ↔
      lexeme = ⟨kind, length s⟩ ∧ length s ≠ 0 := by
  unfold ofLength
  split <;> simp_all [eq_comm]

/-- A recogniser by length finds nothing where the length is none. -/
@[simp] theorem ofLength_eq_none {kind : TokenKind} {length : Text → Nat} {s : Text} :
    ofLength kind length s = .ok none ↔ length s = 0 := by
  unfold ofLength
  split <;> simp_all

/-- A recogniser finds lexemes that have a length, lie within the text and are not its end. -/
def Bounded (recogniser : Recogniser) : Prop :=
  ∀ s lexeme, recogniser s = .ok (some lexeme) →
    lexeme.kind ≠ .eof ∧ 0 < lexeme.length ∧ lexeme.length ≤ s.length

/-- A recogniser by length is bounded if its lengths are. -/
theorem Bounded.ofLength {kind : TokenKind} {length : Text → Nat} (hkind : kind ≠ .eof)
    (h : ∀ s, length s ≤ s.length) : Bounded (ofLength kind length) := by
  intro s lexeme hs
  obtain ⟨rfl, hpos⟩ := ofLength_eq_some.mp hs
  exact ⟨hkind, Nat.pos_of_ne_zero hpos, h s⟩

/-- The first of bounded recognisers that finds something is bounded. -/
theorem Bounded.firstOf {recognisers : List Recogniser}
    (h : ∀ recogniser ∈ recognisers, Bounded recogniser) :
    Bounded (firstOf recognisers) := by
  induction recognisers with
  | nil => exact fun s lexeme hs => (firstOf_nil_ne_some hs).elim
  | cons recogniser others ih =>
      intro s lexeme hs
      rcases firstOf_cons_eq_some.mp hs with hfirst | ⟨_, hothers⟩
      · exact h recogniser List.mem_cons_self s lexeme hfirst
      · exact ih (fun r hr => h r (List.mem_cons_of_mem _ hr)) s lexeme hothers

end Recogniser

open Recogniser

/-- A block comment goes from its fence to the next one that no backslash precedes. -/
theorem blockComment_eq_some {s : Text} {lexeme : Lexeme} :
    blockComment s = .ok (some lexeme) ↔
      commentFence.isPrefixOf s = true ∧ ∃ body,
        Text.findUnescaped? commentFence false (s.drop 3) = some body ∧
          lexeme = ⟨.blockComment, 3 + body + 3⟩ := by
  constructor
  · intro h
    unfold blockComment at h
    split at h
    · next hfence =>
        split at h
        · next body hbody => exact ⟨hfence, body, hbody, by simpa using h.symm⟩
        · cases h
    · cases h
  · rintro ⟨hfence, body, hbody, rfl⟩
    simp only [blockComment, hfence, if_true, hbody]

/-- No block comment is found where its marks do not stand at the front. -/
theorem blockComment_eq_none {s : Text} :
    blockComment s = .ok none ↔ commentFence.isPrefixOf s = false := by
  unfold blockComment
  cases commentFence.isPrefixOf s with
  | false => simp
  | true => cases Text.findUnescaped? commentFence false (s.drop 3) <;> simp

/-- A block comment ends within the text and is not empty. -/
theorem bounded_blockComment : Bounded blockComment := by
  intro s lexeme hs
  obtain ⟨_, body, hbody, rfl⟩ := blockComment_eq_some.mp hs
  have := Text.findUnescaped?_le_length hbody
  simp only [commentFence, List.length_cons, List.length_nil, List.length_drop] at this
  refine ⟨by simp, ?_, ?_⟩ <;> simp only <;> omega

/-- A quoted text goes from its mark to the next one that no backslash precedes. -/
theorem quotedText_eq_some {marks : List QuoteMark} {s : Text} {lexeme : Lexeme} :
    quotedText marks s = .ok (some lexeme) ↔
      ∃ mark ∈ marks, ∃ rest body, s = mark.char :: rest ∧
        Text.findUnescaped? [mark.char] false rest = some body ∧
          lexeme = ⟨.quoted, 1 + body + 1⟩ := by
  constructor
  · intro h
    unfold quotedText at h
    split at h
    · cases h
    · next c rest =>
        split at h
        · next hmark =>
            obtain ⟨mark, hmem, hc⟩ := List.any_eq_true.mp hmark
            obtain rfl := beq_iff_eq.mp hc
            split at h
            · next body hbody =>
                rw [Text.quotedBody?_eq_findUnescaped? mark.char_ne_backslash] at hbody
                exact ⟨mark, hmem, rest, body, rfl, hbody, by simpa using h.symm⟩
            · cases h
        · cases h
  · rintro ⟨mark, hmem, rest, body, rfl, hbody, rfl⟩
    rw [← Text.quotedBody?_eq_findUnescaped? mark.char_ne_backslash] at hbody
    have hmark : marks.any (·.char == mark.char) = true :=
      List.any_eq_true.mpr ⟨mark, hmem, by simp⟩
    simp only [quotedText, hmark, if_true, hbody]

/-- No quoted text is found where none of the marks stands at the front. -/
theorem quotedText_eq_none {marks : List QuoteMark} {c : Char} {s : Text} :
    quotedText marks (c :: s) = .ok none ↔ marks.any (·.char == c) = false := by
  cases hmark : marks.any (·.char == c) with
  | false => simp [quotedText, hmark]
  | true => cases hbody : Text.quotedBody? c s <;> simp [quotedText, hmark, hbody]

/-- A quoted text ends within the text and is not empty. -/
theorem bounded_quotedText (marks : List QuoteMark) : Bounded (quotedText marks) := by
  intro s lexeme hs
  obtain ⟨mark, _, rest, body, rfl, hbody, rfl⟩ := quotedText_eq_some.mp hs
  have := Text.findUnescaped?_le_length hbody
  simp only [List.length_singleton] at this
  refine ⟨by simp, ?_, ?_⟩
  · simp only
    omega
  · simp only [List.length_cons]
    omega

/-- A mark ends within the text and is not empty. -/
theorem bounded_punctuation (marks : List Char) : Bounded (punctuation marks) := by
  refine Bounded.ofLength (by decide) fun s => ?_
  cases s with
  | nil => simp
  | cons c s => simp only [List.length_cons]; split <;> omega

/-- A word ends within the text and is not empty. -/
theorem bounded_word (p : Char → Bool) : Bounded (word p) :=
  Bounded.ofLength (by decide) (Text.run_le_length p)

/-- The tag of a language ends within the text. -/
theorem languageTag?_le_length {s tag : Text} {length : Nat}
    (h : languageTag? s = some (tag, length)) : length ≤ s.length := by
  simp only [languageTag?] at h
  split at h
  · cases h
  · obtain ⟨rfl, rfl⟩ : _ ∧ _ := by simpa using h
    have hblanks := Text.run_le_length (fun c => c == ' ' || c == '\t') s
    have htag := (List.takeWhile_prefix Char.isAlphanum
      (l := s.drop (Text.run (fun c => c == ' ' || c == '\t') s))).length_le
    simp only [List.length_drop] at htag
    omega

/-- A language tag has a length. -/
theorem languageTag?_pos {s tag : Text} {length : Nat}
    (h : languageTag? s = some (tag, length)) : 0 < length := by
  simp only [languageTag?] at h
  split at h
  · cases h
  · next htag =>
      obtain ⟨rfl, rfl⟩ : _ ∧ _ := by simpa using h
      have := List.length_pos_iff.mpr htag
      omega

/-- A fence opens the texts that begin with a bar, and no others. -/
theorem FenceStyle.isSome_openingOf? {s : Text} :
    (openingOf? s).isSome = true ↔ s.head? = some '|' := by
  rw [openingOf?, List.find?_isSome]
  constructor
  · intro h
    obtain ⟨style, _, hopens⟩ := h
    obtain ⟨rest, rfl⟩ := List.isPrefixOf_iff_prefix.mp hopens
    cases style <;> rfl
  · intro h
    obtain ⟨rest, rfl⟩ := List.head?_eq_some_iff.mp h
    exact ⟨.single, by decide, rfl⟩

/-- The style of a fence is that of the opener at the front. -/
theorem FenceStyle.openingOf?_prefix {s : Text} {style : FenceStyle}
    (h : openingOf? s = some style) : style.opener <+: s := by
  unfold openingOf? at h
  exact List.isPrefixOf_iff_prefix.mp (by simpa using List.find?_some h)

/-- A code block has a fence, a language, and content up to the closing fence. -/
theorem codeBlock_eq_some {s : Text} {lexeme : Lexeme} :
    codeBlock s = .ok (some lexeme) ↔
      ∃ style language tag content, FenceStyle.openingOf? s = some style ∧
        languageTag? (s.drop style.opener.length) = some (language, tag) ∧
        Text.find? style.closer (s.drop (style.opener.length + tag)) = some content ∧
        lexeme = ⟨.codeBlock, style.opener.length + tag + content + style.closer.length⟩ := by
  constructor
  · intro h
    simp only [codeBlock] at h
    split at h
    · cases h
    · next style hstyle =>
        split at h
        · cases h
        · next language tag htag =>
            split at h
            · cases h
            · next content hcontent =>
                exact ⟨style, language, tag, content, hstyle, htag, hcontent,
                  by simpa using h.symm⟩
  · rintro ⟨style, language, tag, content, hstyle, htag, hcontent, rfl⟩
    simp only [codeBlock, hstyle, htag, hcontent]

/-- A code block ends within the text and is not empty. -/
theorem bounded_codeBlock : Bounded codeBlock := by
  intro s lexeme hs
  obtain ⟨style, language, tag, content, hstyle, htag, hcontent, rfl⟩ := codeBlock_eq_some.mp hs
  have hopener := (FenceStyle.openingOf?_prefix hstyle).length_le
  have hlength := languageTag?_le_length htag
  have hclose := Text.find?_le_length hcontent
  have hcloser : 0 < style.closer.length := by cases style <;> decide
  simp only [List.length_drop] at hlength hclose
  refine ⟨by simp, ?_, ?_⟩ <;> simp only <;> omega

namespace Mode

/-- What all modes of the line share is bounded. -/
theorem bounded_shared (marks : List QuoteMark) :
    ∀ recogniser ∈ shared marks, Bounded recogniser := by
  simp only [shared, List.forall_mem_cons, List.not_mem_nil, false_implies, implies_true,
    and_true]
  exact ⟨Bounded.ofLength (by decide) terminatorLength_le_length,
    Bounded.ofLength (by decide) commentLength_le_length, bounded_blockComment,
    bounded_quotedText marks, Bounded.ofLength (by decide) importLength_le_length⟩

/-- All recognisers of a mode are bounded. -/
theorem bounded_recognisers (mode : Mode) : ∀ recogniser ∈ mode.recognisers, Bounded recogniser := by
  have hcomment : Bounded lineComment := Bounded.ofLength (by decide) commentLength_le_length
  cases mode with
  | declaration =>
      simp only [recognisers, List.forall_mem_append, List.forall_mem_cons, List.not_mem_nil,
        false_implies, implies_true, and_true]
      exact ⟨bounded_shared _, Bounded.ofLength (by decide) connectionLength_le_length,
        bounded_punctuation _, Bounded.ofLength (by decide) namePhrase.length_le_length⟩
  | label =>
      simp only [recognisers, List.forall_mem_append, List.forall_mem_cons, List.not_mem_nil,
        false_implies, implies_true, and_true]
      exact ⟨bounded_shared _, bounded_punctuation _, bounded_codeBlock,
        Bounded.ofLength (by decide) (literalLength_le_length numeralLength_le_length),
        Bounded.ofLength (by decide) (literalLength_le_length booleanLength_le_length),
        Bounded.ofLength (by decide) labelPhrase.length_le_length⟩
  | arguments | constraints =>
      simp only [recognisers, List.forall_mem_cons, List.not_mem_nil, false_implies, implies_true,
        and_true]
      exact ⟨hcomment, bounded_punctuation _, bounded_word _⟩

@[simp] theorem scan_nil (mode : Mode) : mode.scan [] = .ok ⟨.eof, 0⟩ := rfl

/-- Where the end is not found the text goes on. -/
theorem ne_nil_of_scan {mode : Mode} {s : Text} {lexeme : Lexeme} (h : mode.scan s = .ok lexeme)
    (hkind : lexeme.kind ≠ .eof) : s ≠ [] := by
  rintro rfl
  exact hkind (Except.ok.inj h ▸ rfl)

/-- A scan of a text that goes on is a search with the recognisers of the mode. -/
theorem scan_eq_ok {mode : Mode} {s : Text} {lexeme : Lexeme} (hs : s ≠ []) :
    mode.scan s = .ok lexeme ↔
      Recogniser.firstOf mode.recognisers s = .ok (some lexeme) := by
  cases s with
  | nil => exact absurd rfl hs
  | cons c s =>
      simp only [scan]
      split <;> simp_all

/-- A lexeme lies within the text, and only the end of the text has no length. -/
theorem scan_bounds {mode : Mode} {s : Text} {lexeme : Lexeme} (h : mode.scan s = .ok lexeme) :
    lexeme.length ≤ s.length ∧ (lexeme.kind = .eof ↔ s = []) ∧
      (0 < lexeme.length ↔ s ≠ []) := by
  cases s with
  | nil =>
      obtain rfl : (⟨.eof, 0⟩ : Lexeme) = lexeme := by simpa using h
      simp
  | cons c s =>
      obtain ⟨hkind, hpos, hle⟩ := Bounded.firstOf (bounded_recognisers mode) (c :: s) lexeme
        ((scan_eq_ok (List.cons_ne_nil c s)).mp h)
      exact ⟨hle, by simpa using hkind, by simpa using hpos⟩

end Mode

end DiagramText
