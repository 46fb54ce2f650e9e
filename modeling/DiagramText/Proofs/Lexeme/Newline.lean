import DiagramText.Proofs.Lexeme.Scan

/-!
# Scanning before a line break

A text that goes on with a line break is scanned as it was before, with two
exceptions, both at its end: a carriage return takes the line feed in, and so
does a line comment (`Mode.scan_newline`).  No other lexeme reaches over a line
break that was not part of it.

A text that ends with a line feed is scanned as it is whatever follows
(`Mode.scan_ended`): nothing reaches over that line feed.
-/

namespace DiagramText

open Text

/-- The lexeme that was found at the end of a text takes in the line feed after it. -/
inductive TakesIn (s : Text) : Lexeme → Lexeme → Prop
  | terminator (ends : s = ['\r']) : TakesIn s ⟨.terminator, 1⟩ ⟨.terminator, 2⟩
  | comment : TakesIn s ⟨.comment, s.length⟩ ⟨.comment, s.length + 1⟩

namespace Recogniser

/-- What the recogniser finds, or that it finds nothing, stays so when the text goes on with a line
break, except that a lexeme at its end may take the line feed in. -/
def Stays (recogniser : Recogniser) : Prop :=
  ∀ s t found, s ≠ [] → recogniser s = .ok found →
    recogniser (s ++ '\n' :: t) = .ok found ∨
      ∃ lexeme lexeme', TakesIn s lexeme lexeme' ∧ found = some lexeme ∧
        recogniser (s ++ '\n' :: t) = .ok (some lexeme')

/-- What the recogniser finds up to a line feed, or that it finds nothing there, stays so whatever
follows the line feed. -/
def Ended (recogniser : Recogniser) : Prop :=
  ∀ s t found, s ≠ [] → recogniser (s ++ ['\n']) = .ok found →
    recogniser (s ++ '\n' :: t) = .ok found

/-- The length does not change when the text goes on with a line break. -/
def StopsAtBreak (length : Text → Nat) : Prop :=
  ∀ s t, s ≠ [] → length (s ++ '\n' :: t) = length s

section
variable {kind : TokenKind} {length : Text → Nat}

/-- A recogniser by length stays if the length stops at a break. -/
theorem Stays.ofLength (h : StopsAtBreak length) : Stays (ofLength kind length) := by
  intro s t found hs hfound
  left
  unfold Recogniser.ofLength at hfound ⊢
  rw [h s t hs]
  exact hfound

/-- A recogniser by length has ended if the length is the same whatever follows the line feed. -/
theorem Ended.ofLength
    (h : ∀ s t, s ≠ [] → length (s ++ '\n' :: t) = length (s ++ ['\n'])) :
    Ended (ofLength kind length) := by
  intro s t found hs hfound
  unfold Recogniser.ofLength at hfound ⊢
  rw [h s t hs]
  exact hfound

/-- Where the length stops at a break neither of the two exceptions applies. -/
theorem stays_of_stopsAtBreak (h : StopsAtBreak length) :
    Stays (Recogniser.ofLength kind length) ∧ Ended (Recogniser.ofLength kind length) :=
  ⟨.ofLength h, .ofLength fun s t hs => (h s t hs).trans (h s [] hs).symm⟩

end

/-- A recogniser stays and has ended if what it finds it finds whatever follows, and if a line feed behind
a text does not change whether it finds nothing. -/
theorem stays_of_append {recogniser : Recogniser}
    (hsome : ∀ {s : Text} {lexeme : Lexeme} (t : Text), recogniser s = .ok (some lexeme) →
      recogniser (s ++ t) = .ok (some lexeme))
    (hnone : ∀ s t, s ≠ [] → (recogniser (s ++ '\n' :: t) = .ok none ↔ recogniser s = .ok none)) :
    Stays recogniser ∧ Ended recogniser := by
  constructor
  · intro s t found hs hfound
    left
    cases found with
    | none => exact (hnone s t hs).mpr hfound
    | some lexeme => exact hsome _ hfound
  · intro s t found hs hfound
    cases found with
    | none => exact (hnone s t hs).mpr ((hnone s [] hs).mp hfound)
    | some lexeme => simpa using hsome t hfound

/-- The first of recognisers that stay stays. -/
theorem Stays.firstOf {recognisers : List Recogniser}
    (h : ∀ recogniser ∈ recognisers, Stays recogniser) : Stays (firstOf recognisers) := by
  induction recognisers with
  | nil =>
      intro s t found _ hfound
      exact .inl hfound
  | cons recogniser others ih =>
      rw [List.forall_mem_cons] at h
      intro s t found hs hfound
      cases hfirst : recogniser s with
      | error fault =>
          simp only [Recogniser.firstOf, hfirst] at hfound
          cases hfound
      | ok first =>
          rcases h.1 s t first hs hfirst with hsame | ⟨lexeme, lexeme', htakes, rfl, hsame⟩
          · cases first with
            | none =>
                simp only [Recogniser.firstOf, hfirst, hsame] at hfound ⊢
                exact ih h.2 s t found hs hfound
            | some lexeme =>
                simp only [Recogniser.firstOf, hfirst, hsame] at hfound ⊢
                exact .inl hfound
          · simp only [Recogniser.firstOf, hfirst, hsame] at hfound ⊢
            exact .inr ⟨lexeme, lexeme', htakes, (Except.ok.inj hfound).symm, rfl⟩

/-- The first of recognisers that have ended has ended. -/
theorem Ended.firstOf {recognisers : List Recogniser}
    (h : ∀ recogniser ∈ recognisers, Ended recogniser) : Ended (firstOf recognisers) := by
  induction recognisers with
  | nil =>
      intro s t found _ hfound
      exact hfound
  | cons recogniser others ih =>
      rw [List.forall_mem_cons] at h
      intro s t found hs hfound
      cases hfirst : recogniser (s ++ ['\n']) with
      | error fault =>
          simp only [Recogniser.firstOf, hfirst] at hfound
          cases hfound
      | ok first =>
          have hsame := h.1 s t first hs hfirst
          cases first with
          | none =>
              simp only [Recogniser.firstOf, hfirst, hsame] at hfound ⊢
              exact ih h.2 s t found hs hfound
          | some lexeme =>
              simp only [Recogniser.firstOf, hfirst, hsame] at hfound ⊢
              exact hfound

end Recogniser

open Recogniser

/-- What follows a line feed does not change the length of a line break before it. -/
theorem breakLength_ended (s t : Text) :
    breakLength (s ++ '\n' :: t) = breakLength (s ++ ['\n']) := by
  rcases s with _ | ⟨c, _ | ⟨d, s⟩⟩
  · rfl
  · by_cases hc : c = '\r' <;> by_cases hn : c = '\n' <;> simp [breakLength, hc, hn]
  · by_cases hc : c = '\r' <;> by_cases hd : d = '\n' <;> by_cases hn : c = '\n' <;>
      simp [breakLength, hc, hd, hn]

/-- The length of a line break changes only where a carriage return stood last. -/
theorem breakLength_newline {s : Text} (t : Text) (hs : s ≠ []) (hreturn : s ≠ ['\r']) :
    breakLength (s ++ '\n' :: t) = breakLength s := by
  rcases s with _ | ⟨c, _ | ⟨d, s⟩⟩
  · exact absurd rfl hs
  · by_cases hc : c = '\n'
    · simp [breakLength, hc]
    · have hc' : c ≠ '\r' := fun h => hreturn (by rw [h])
      simp [breakLength, hc, hc']
  · by_cases hc : c = '\r'
    · by_cases hd : d = '\n' <;> simp [breakLength, hc, hd]
    · by_cases hd : c = '\n' <;> simp [breakLength, hc, hd]

/-- A line break stays, except that a carriage return takes the line feed in. -/
theorem stays_terminator : Stays (ofLength .terminator terminatorLength) := by
  intro s t found hs hfound
  by_cases hreturn : s = ['\r']
  · subst hreturn
    obtain rfl := Except.ok.inj hfound
    exact .inr ⟨⟨.terminator, 1⟩, ⟨.terminator, 2⟩, .terminator rfl, rfl, rfl⟩
  · left
    have hlength : terminatorLength (s ++ '\n' :: t) = terminatorLength s := by
      cases s with
      | nil => exact absurd rfl hs
      | cons c s =>
          have hbreak := breakLength_newline t hs hreturn
          by_cases hc : c = ';'
          · simp [terminatorLength, hc]
          · simpa [terminatorLength, hc] using hbreak
    unfold ofLength at hfound ⊢
    rw [hlength]
    exact hfound

/-- A line break has ended with its line feed. -/
theorem ended_terminator : Ended (ofLength .terminator terminatorLength) := by
  apply Ended.ofLength
  intro s t hs
  obtain ⟨c, s, rfl⟩ := List.exists_cons_of_ne_nil hs
  have hbreak := breakLength_ended (c :: s) t
  by_cases hc : c = ';'
  · simp [terminatorLength, hc]
  · simpa [terminatorLength, hc] using hbreak

/-- A line comment reaches up to a break, or to the end of the text, where it takes in the line
feed that follows. -/
theorem commentLength_newline (rest t : Text) :
    commentLength ('#' :: rest ++ '\n' :: t) = commentLength ('#' :: rest) ∨
      (commentLength ('#' :: rest) = ('#' :: rest).length ∧
        commentLength ('#' :: rest ++ '\n' :: t) = ('#' :: rest).length + 1) := by
  have hrun : run (!isBreak ·) (rest ++ '\n' :: t) = run (!isBreak ·) rest :=
    run_append (begins_cons.mpr (by decide))
  have hle := run_le_length (!isBreak ·) rest
  have hlast := List.length_drop (l := rest) (i := run (!isBreak ·) rest)
  simp only [List.cons_append, commentLength, hrun, drop_run_append]
  by_cases hnone : rest.drop (run (!isBreak ·) rest) = []
  · right
    rw [hnone] at hlast ⊢
    simp only [List.length_nil, List.length_cons, List.nil_append] at hlast ⊢
    simp only [breakLength]
    omega
  by_cases hreturn : rest.drop (run (!isBreak ·) rest) = ['\r']
  · right
    rw [hreturn] at hlast ⊢
    simp only [List.length_nil, List.length_cons, List.cons_append, List.nil_append] at hlast ⊢
    simp only [breakLength]
    omega
  · left
    rw [breakLength_newline t hnone hreturn]

/-- A line comment stays, except that at the end it takes the line feed in. -/
theorem stays_lineComment : Stays lineComment := by
  intro s t found hs hfound
  cases s with
  | nil => exact absurd rfl hs
  | cons c rest =>
      unfold lineComment ofLength at hfound ⊢
      by_cases hc : c = '#'
      · subst hc
        have hpos : commentLength ('#' :: rest) ≠ 0 := by simp [commentLength]
        rw [if_neg hpos] at hfound
        obtain rfl := Except.ok.inj hfound
        rcases commentLength_newline rest t with hsame | ⟨hwhole, hlonger⟩
        · left
          rw [hsame, if_neg hpos]
        · right
          refine ⟨_, _, .comment, by rw [hwhole], ?_⟩
          rw [hlonger, if_neg (Nat.succ_ne_zero _)]
      · left
        have hlength : ∀ u, commentLength (c :: u) = 0 := fun u => by simp [commentLength, hc]
        rw [List.cons_append, hlength]
        rw [hlength] at hfound
        exact hfound

/-- A line comment has ended with its line feed. -/
theorem ended_lineComment : Ended lineComment := by
  apply Ended.ofLength
  intro s t hs
  obtain ⟨c, rest, rfl⟩ := List.exists_cons_of_ne_nil hs
  by_cases hc : c = '#'
  · subst hc
    have hrun (t : Text) : run (!isBreak ·) (rest ++ '\n' :: t) = run (!isBreak ·) rest :=
      run_append (begins_cons.mpr (by decide))
    simp only [List.cons_append, commentLength, hrun, drop_run_append]
    rw [breakLength_ended]
  · simp [commentLength, hc]

/-- A block comment stays and has ended, as it ends with its marks. -/
theorem stays_blockComment : Stays blockComment ∧ Ended blockComment := by
  apply stays_of_append blockComment_append
  intro s t _
  rw [blockComment_eq_none, blockComment_eq_none, isPrefixOf_append (begins_cons.mpr (by decide))]

/-- A quoted text stays and has ended: its line breaks are its own. -/
theorem stays_quotedText (marks : List QuoteMark) :
    Stays (quotedText marks) ∧ Ended (quotedText marks) := by
  apply stays_of_append quotedText_append
  intro s t hs
  obtain ⟨c, s, rfl⟩ := List.exists_cons_of_ne_nil hs
  rw [List.cons_append, quotedText_eq_none, quotedText_eq_none]

theorem import_stopsAtBreak : StopsAtBreak importLength :=
  fun _ _ _ => importLength_append (begins_cons.mpr (by decide))

theorem connection_stopsAtBreak : StopsAtBreak connectionLength :=
  fun _ _ hs => connectionLength_append (begins_cons.mpr (by decide)) hs

/-- The length of a mark depends on the first character only. -/
theorem mark_stopsAtBreak (marks : List Char) :
    StopsAtBreak fun
      | c :: _ => if marks.contains c then 1 else 0
      | [] => 0 := by
  intro s t hs
  cases s with
  | nil => exact absurd rfl hs
  | cons c s => rfl

/-- A run stops at a break if it does not go over line feeds. -/
theorem run_stopsAtBreak {p : Char → Bool} (h : p '\n' = false) : StopsAtBreak (run p) :=
  fun _ _ _ => run_append (begins_cons.mpr h)

/-- Only a bar opens a code block. -/
theorem codeBlock_none {c : Char} (hc : c ≠ '|') (s : Text) : codeBlock (c :: s) = .ok none := by
  have hopening : FenceStyle.openingOf? (c :: s) = none := by
    rw [← Option.not_isSome_iff_eq_none, FenceStyle.isSome_openingOf?]
    simpa using hc
  simp [codeBlock, hopening]

/-- Every bar opens a code block. -/
theorem codeBlock_bar (s : Text) : codeBlock ('|' :: s) ≠ .ok none := by
  have hopening : (FenceStyle.openingOf? ('|' :: s)).isSome = true := by
    simp [FenceStyle.isSome_openingOf?]
  intro h
  unfold codeBlock at h
  split at h
  · next hnone =>
      rw [hnone] at hopening
      cases hopening
  · split at h
    · cases h
    · simp only at h
      split at h <;> cases h

/-- A code block stays and has ended, as it ends with its fence. -/
theorem stays_codeBlock : Stays codeBlock ∧ Ended codeBlock := by
  have hnone : ∀ c s, codeBlock (c :: s) = .ok none ↔ c ≠ '|' := by
    intro c s
    by_cases hc : c = '|'
    · simp [hc, codeBlock_bar]
    · simp [hc, codeBlock_none hc]
  apply stays_of_append codeBlock_append
  intro s t hs
  obtain ⟨c, s, rfl⟩ := List.exists_cons_of_ne_nil hs
  rw [List.cons_append, hnone, hnone]

/-- A literal stops at a break if what it is made of does: a line break may end it. -/
theorem literal_stopsAtBreak {length : Text → Nat} (h : StopsAtBreak length)
    (hle : ∀ s, length s ≤ s.length) : StopsAtBreak (literalLength length) :=
  fun s t hs => literalLength_append (h s t hs) (hle s) (.inl rfl)

theorem numeral_stopsAtBreak : StopsAtBreak numeralLength :=
  fun _ _ hs => numeralLength_append (begins_cons.mpr (by decide)) hs

theorem boolean_stopsAtBreak : StopsAtBreak booleanLength :=
  fun _ _ _ => booleanLength_append (begins_cons.mpr (by decide))

/-- A name stops at a break. -/
theorem name_stopsAtBreak : StopsAtBreak namePhrase.length := by
  refine fun s t hs => Phrase.regular_namePhrase.length_append ?_ ?_ ?_ hs
  · exact Phrase.extent_stop (by decide) (by decide) (by decide)
  · intro c hc hescapable
    obtain rfl := Option.some.inj hc
    exact absurd hescapable (by decide)
  · intro c u _
    simp only [namePhrase]
    rw [connectionLength_append (begins_cons.mpr (by decide)) (List.cons_ne_nil c u)]

/-- The text of a label stops at a break. -/
theorem text_stopsAtBreak : StopsAtBreak labelPhrase.length := by
  refine fun s t hs => Phrase.regular_labelPhrase.length_append ?_ ?_ ?_ hs
  · exact Phrase.extent_stop (by decide) (by decide) (by decide)
  · intro c hc hescapable
    obtain rfl := Option.some.inj hc
    exact absurd hescapable (by decide)
  · intro c u _
    rfl

namespace Mode

/-- What all modes of the line share stays and has ended. -/
theorem stays_shared (marks : List QuoteMark) :
    ∀ recogniser ∈ shared marks, Stays recogniser ∧ Ended recogniser := by
  simp only [shared, List.forall_mem_cons, List.not_mem_nil, false_implies, implies_true,
    and_true]
  exact ⟨⟨stays_terminator, ended_terminator⟩, ⟨stays_lineComment, ended_lineComment⟩,
    stays_blockComment, stays_quotedText marks, stays_of_stopsAtBreak import_stopsAtBreak⟩

/-- All recognisers of a mode stay and have ended. -/
theorem stays_recognisers (mode : Mode) :
    ∀ recogniser ∈ mode.recognisers, Stays recogniser ∧ Ended recogniser := by
  have hpunctuation (marks : List Char) :
      Stays (punctuation marks) ∧ Ended (punctuation marks) :=
    stays_of_stopsAtBreak (mark_stopsAtBreak marks)
  cases mode with
  | declaration =>
      simp only [recognisers, List.forall_mem_append, List.forall_mem_cons, List.not_mem_nil,
        false_implies, implies_true, and_true]
      exact ⟨stays_shared _, stays_of_stopsAtBreak connection_stopsAtBreak, hpunctuation _,
        stays_of_stopsAtBreak name_stopsAtBreak⟩
  | label =>
      simp only [recognisers, List.forall_mem_append, List.forall_mem_cons, List.not_mem_nil,
        false_implies, implies_true, and_true]
      exact ⟨stays_shared _, hpunctuation _, stays_codeBlock,
        stays_of_stopsAtBreak (literal_stopsAtBreak numeral_stopsAtBreak numeralLength_le_length),
        stays_of_stopsAtBreak (literal_stopsAtBreak boolean_stopsAtBreak booleanLength_le_length),
        stays_of_stopsAtBreak text_stopsAtBreak⟩
  | arguments =>
      simp only [recognisers, List.forall_mem_cons, List.not_mem_nil, false_implies, implies_true,
        and_true]
      exact ⟨⟨stays_lineComment, ended_lineComment⟩, hpunctuation _,
        stays_of_stopsAtBreak (run_stopsAtBreak (by decide))⟩
  | constraints =>
      simp only [recognisers, List.forall_mem_cons, List.not_mem_nil, false_implies, implies_true,
        and_true]
      exact ⟨⟨stays_lineComment, ended_lineComment⟩, hpunctuation _,
        stays_of_stopsAtBreak (run_stopsAtBreak (by decide))⟩

/-- What a scan finds stays so when the text goes on with a line break, except that a terminator or
a line comment at its end may take the line feed in. -/
theorem scan_newline {mode : Mode} {s : Text} {lexeme : Lexeme} (t : Text) (hs : s ≠ [])
    (h : mode.scan s = .ok lexeme) :
    mode.scan (s ++ '\n' :: t) = .ok lexeme ∨
      ∃ lexeme', TakesIn s lexeme lexeme' ∧ mode.scan (s ++ '\n' :: t) = .ok lexeme' := by
  have hs' : s ++ '\n' :: t ≠ [] := by simp
  rw [scan_eq_ok hs] at h
  rcases Stays.firstOf (fun _ h => (stays_recognisers mode _ h).1) s t _ hs h with
    hsame | ⟨_, lexeme', htakes, heq, hsame⟩
  · exact .inl ((scan_eq_ok hs').mpr hsame)
  · obtain rfl := Option.some.inj heq
    exact .inr ⟨lexeme', htakes, (scan_eq_ok hs').mpr hsame⟩

/-- A text that ends with a line feed is scanned as it is whatever follows. -/
theorem scan_ended {mode : Mode} {s : Text} {lexeme : Lexeme} (t : Text)
    (h : mode.scan (s ++ ['\n']) = .ok lexeme) : mode.scan (s ++ '\n' :: t) = .ok lexeme := by
  by_cases hs : s = []
  · subst hs
    -- A mode that skips line feeds finds nothing where one stands.
    cases mode with
    | declaration => exact h
    | label => exact h
    | arguments => cases h
    | constraints => cases h
  · rw [scan_eq_ok (by simp)] at h ⊢
    exact Ended.firstOf (fun _ h => (stays_recognisers mode _ h).2) s t _ hs h

end Mode

end DiagramText
