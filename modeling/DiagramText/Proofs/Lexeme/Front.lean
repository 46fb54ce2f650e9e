import DiagramText.Proofs.Lexeme.Newline

/-!
# What the first character tells

A line break, a semicolon, a comment, a quoted text and an import each begin
with characters of their own, so before any other character the recognisers
that statements and labels share find nothing (`Mode.shared_eq_none`).

A token that a statement begins with can also be read where a label is looked
for (`Mode.exists_scan_label`).
-/

namespace DiagramText

open Recogniser

/-- The characters that the lexemes shared by statements and labels begin with. -/
def sharedFronts : List Char :=
  [';', '\n', '\r', '#', '\x22', '\x27', '@', '.']

/-- A name begins like a label text. -/
theorem labelPhrase_beginsAt_of_name {s : Text} (h : namePhrase.beginsAt s = true) :
    labelPhrase.beginsAt s = true := by
  cases s with
  | nil => cases h
  | cons c s =>
      simp only [Phrase.beginsAt, Bool.or_eq_true, Bool.and_eq_true] at h ⊢
      rcases h with ⟨hslash, hescaped⟩ | ⟨hbody, _⟩
      · refine .inl ⟨hslash, ?_⟩
        obtain ⟨d, hd, hescapable⟩ := (Option.any_eq_true _ _).mp hescaped
        exact (Option.any_eq_true _ _).mpr ⟨d, hd, Bool.or_eq_true_iff.mpr (.inl hescapable)⟩
      · refine .inr ⟨?_, rfl⟩
        simp only [namePhrase, Bool.or_eq_true, List.contains_iff_mem] at hbody
        simp only [labelPhrase, Bool.or_eq_true, List.contains_iff_mem]
        exact hbody.imp id fun hmem => by
          rw [show ['/', '*', '+', '-', '(', ')', '\\', ':', '.', '%', '&', '?', '\x27', ','] =
            ['/', '*', '+', '-'] ++ ['(', ')', '\\', ':', '.', '%', '&', '?', '\x27', ','] from rfl]
          exact List.mem_append_left _ hmem

/-- The characters that labels begin with which are no texts, and the further marks of statements. -/
def markFronts : List Char :=
  ['|', '\x7b', '\x7d', '['] ++ ['(', ')', ']', ':']

/-- A name begins with a character of its own. -/
theorem namePhrase_front {c : Char} {s : Text} (h : namePhrase.beginsAt (c :: s) = true) :
    c ∉ sharedFronts ∧ c ∉ markFronts := by
  have hboth : c ∉ sharedFronts ++ markFronts := by
    intro hmem
    simp only [Phrase.beginsAt, namePhrase, Bool.or_eq_true, Bool.and_eq_true, beq_iff_eq] at h
    rcases h with ⟨rfl, _⟩ | ⟨hbody | hbody, _⟩
    · exact absurd hmem (by decide)
    · have hall : (sharedFronts ++ markFronts).all (!isWord ·) = true := by decide
      have hword := List.all_eq_true.mp hall c hmem
      simp [hbody] at hword
    · have hall : ['/', '*', '+', '-'].all (!(sharedFronts ++ markFronts).contains ·) = true := by
        decide
      have hmark := List.all_eq_true.mp hall c (List.contains_iff_mem.mp hbody)
      rw [List.contains_iff_mem.mpr hmem] at hmark
      cases hmark
  simpa only [List.mem_append, not_or] using hboth

namespace Mode

/-- No shared lexeme begins with another character. -/
theorem shared_eq_none {c : Char} (hc : c ∉ sharedFronts) (marks : List QuoteMark) (s : Text) :
    ∀ recogniser ∈ shared marks, recogniser (c :: s) = .ok none := by
  simp only [sharedFronts, List.mem_cons, List.not_mem_nil, or_false, not_or] at hc
  obtain ⟨hsemicolon, hfeed, hreturn, hnumber, hdouble, hsingle, hat, hdot⟩ := hc
  simp only [shared, List.forall_mem_cons, List.not_mem_nil, false_implies, implies_true, and_true]
  refine ⟨?_, ?_, ?_, ?_, ?_⟩
  · rw [ofLength_eq_none]
    simp [terminatorLength, breakLength, hsemicolon, hfeed, hreturn]
  · rw [lineComment, ofLength_eq_none]
    simp [commentLength, hnumber]
  · rw [blockComment_eq_none]
    simp [commentFence, List.isPrefixOf, Ne.symm hdouble]
  · refine quotedText_eq_none.mpr (List.any_eq_false.mpr fun mark _ => ?_)
    cases mark
    · simpa [QuoteMark.char] using Ne.symm hdouble
    · simpa [QuoteMark.char] using Ne.symm hsingle
  · rw [ofLength_eq_none]
    simp [importLength, hat, hdot]

/-- Before another character the further recognisers decide. -/
theorem firstOf_of_not_shared {c : Char} (hc : c ∉ sharedFronts) (marks : List QuoteMark)
    (others : List Recogniser) (s : Text) :
    firstOf (shared marks ++ others) (c :: s) = firstOf others (c :: s) := by
  rw [firstOf_append, firstOf_eq_none (shared_eq_none hc marks s)]

/-- White space is none of these characters. -/
theorem not_isBlank_of_mem {marks : List Char} {c : Char} (hmarks : marks.all (!isBlank ·) = true)
    (hc : c ∈ marks) : ¬ isBlank c = true := by
  simpa using List.all_eq_true.mp hmarks c hc

/-- Where a label text begins and nothing shared stands, something can be read as a label. -/
theorem exists_scan_label_of_begins {c : Char} {s : Text}
    (hshared : ∀ recogniser ∈ shared [.double], recogniser (c :: s) = .ok none)
    (hmark : c ∉ ['|', '\x7b', '\x7d', '[']) (hbegins : labelPhrase.beginsAt (c :: s) = true) :
    ∃ lexeme, Mode.label.scan (c :: s) = .ok lexeme := by
  have htext := Phrase.length_ne_zero_iff.mpr hbegins
  simp only [List.mem_cons, List.not_mem_nil, or_false, not_or] at hmark
  have hpunctuation : punctuation ['\x7b', '\x7d', '['] (c :: s) = .ok none := by
    simp [punctuation, hmark]
  have hcode := codeBlock_none hmark.1 s
  have hfound : ∃ lexeme, firstOf Mode.label.recognisers (c :: s) = .ok (some lexeme) := by
    rw [recognisers, firstOf_append, firstOf_eq_none hshared]
    simp only [firstOf, hpunctuation, hcode, ofLength]
    by_cases hnumber : literalLength numeralLength (c :: s) = 0
    · by_cases hboolean : literalLength booleanLength (c :: s) = 0
      · simp only [hnumber, hboolean, if_true, if_neg htext]
        exact ⟨_, rfl⟩
      · simp only [hnumber, if_true, if_neg hboolean]
        exact ⟨_, rfl⟩
    · simp only [if_neg hnumber]
      exact ⟨_, rfl⟩
  obtain ⟨lexeme, hfound⟩ := hfound
  exact ⟨lexeme, (scan_eq_ok (List.cons_ne_nil c s)).mpr hfound⟩

/-- Where all of the marks are looked for and no quoted text stands, none stands between one of
them. -/
theorem quotedText_none_of_none {s : Text} (h : quotedText [.double, .single] s = .ok none) :
    quotedText [.double] s = .ok none := by
  cases s with
  | nil => rfl
  | cons c s =>
      rw [quotedText_eq_none] at h ⊢
      simp only [List.any_cons, List.any_nil, Bool.or_false, Bool.or_eq_false_iff] at h ⊢
      exact h.1

/-- A terminator of a statement can be read as a label. -/
theorem scan_label_terminator {s : Text} {n : Nat}
    (h : Mode.declaration.scan s = .ok ⟨.terminator, n⟩) :
    Mode.label.scan s = .ok ⟨.terminator, n⟩ := by
  have hs := ne_nil_of_scan h (by simp)
  obtain ⟨hlength, hn⟩ := scan_terminator.mp h
  refine (scan_eq_ok hs).mpr (firstOf_cons_eq_some.mpr (.inl (ofLength_eq_some.mpr ?_)))
  rw [hlength]
  exact ⟨rfl, hn⟩

section

variable {c : Char} {s : Text} {lexeme : Lexeme}

/-- Where a connection is ruled out, and so are all marks but an opening parenthesis and a closing
brace, something can be read as a label. -/
theorem exists_scan_label_of_own (hshared : ∀ recogniser ∈ shared [.double], recogniser (c :: s) = .ok none)
    (hconnection : lexeme.kind ≠ .connection) (hpunct : lexeme.kind = .punct → c = '(' ∨ c = '\x7d')
    (h : firstOf (Mode.declaration.recognisers.drop 5) (c :: s) = .ok (some lexeme)) :
    ∃ lexeme', Mode.label.scan (c :: s) = .ok lexeme' := by
  obtain ⟨_, hfirst⟩ := (firstOf_skip ofKind_ofLength hconnection).mp h
  rcases firstOf_cons_eq_some.mp hfirst with hmark | ⟨_, hfirst⟩
  · rcases hpunct (ofKind_ofLength _ _ hmark) with rfl | rfl
    · exact exists_scan_label_of_begins hshared (by decide) rfl
    · exact ⟨_, rfl⟩
  · have hname := (firstOf_cons_eq_some.mp hfirst).resolve_right fun h => firstOf_nil_ne_some h.2
    have hbegins := Phrase.length_ne_zero_iff.mp (ofLength_eq_some.mp hname).2
    refine exists_scan_label_of_begins hshared (fun hmem => ?_) (labelPhrase_beginsAt_of_name hbegins)
    exact (namePhrase_front hbegins).2 (List.mem_append_left _ hmem)

variable (hfree : ∀ recogniser ∈ (shared []).take 3, recogniser (c :: s) = .ok none)

include hfree

/-- Where no terminator and no comment stands, the other recognisers of labels decide. -/
theorem exists_scan_label_of_later (h : firstOf (Mode.label.recognisers.drop 3) (c :: s) = .ok (some lexeme)) :
    ∃ lexeme', Mode.label.scan (c :: s) = .ok lexeme' := by
  refine ⟨lexeme, (scan_eq_ok (List.cons_ne_nil c s)).mpr ?_⟩
  rw [← List.take_append_drop 3 Mode.label.recognisers, firstOf_append]
  have hnone : firstOf (Mode.label.recognisers.take 3) (c :: s) = .ok none := firstOf_eq_none hfree
  rw [hnone]
  exact h

/-- Nothing shared stands where there is no quoted text and no import, either. -/
theorem shared_double_eq_none (hquoted : quotedText [.double] (c :: s) = .ok none)
    (himport : ofLength .importRef importLength (c :: s) = .ok none) :
    ∀ recogniser ∈ shared [.double], recogniser (c :: s) = .ok none :=
  List.forall_mem_append.mpr ⟨hfree, by
    simp only [List.forall_mem_cons, List.not_mem_nil, false_implies, implies_true, and_true]
    exact ⟨hquoted, himport⟩⟩

/-- Where a quoted name stands something can be read as a label. -/
theorem exists_scan_label_of_quoted (h : quotedText [.double, .single] (c :: s) = .ok (some lexeme)) :
    ∃ lexeme', Mode.label.scan (c :: s) = .ok lexeme' := by
  obtain ⟨mark, _, rest, body, hs, hbody, _⟩ := quotedText_eq_some.mp h
  obtain ⟨rfl, rfl⟩ := List.cons.inj hs
  cases mark with
  | double =>
      exact exists_scan_label_of_later hfree (firstOf_cons_eq_some.mpr
        (.inl (quotedText_eq_some.mpr ⟨.double, by simp, s, body, rfl, hbody, rfl⟩)))
  | single =>
      exact exists_scan_label_of_begins (shared_double_eq_none hfree rfl rfl) (by decide) rfl

end

/-- Where a token stands that a statement may begin with, something can be read as a label. -/
theorem exists_scan_label {s : Text} {lexeme : Lexeme}
    (h : Mode.declaration.scan s = .ok lexeme) (hplain : lexeme.kind.isComment = false)
    (hconnection : lexeme.kind ≠ .connection)
    (hpunct : lexeme.kind = .punct → s.Begins fun c => c = '(' ∨ c = '\x7d') :
    ∃ lexeme', Mode.label.scan s = .ok lexeme' := by
  cases s with
  | nil => exact ⟨_, rfl⟩
  | cons c s =>
      by_cases hterminator : lexeme.kind = .terminator
      · obtain ⟨kind, n⟩ := lexeme
        obtain rfl : kind = .terminator := hterminator
        exact ⟨_, scan_label_terminator h⟩
      have hcomment : lexeme.kind ≠ .comment := fun hkind => by simp [hkind, TokenKind.isComment] at hplain
      have hblock : lexeme.kind ≠ .blockComment := fun hkind => by simp [hkind, TokenKind.isComment] at hplain
      have hfirst := (scan_eq_ok (List.cons_ne_nil c s)).mp h
      rw [recognisers, shared, List.cons_append, firstOf_skip ofKind_ofLength hterminator,
        List.cons_append, lineComment, firstOf_skip ofKind_ofLength hcomment, List.cons_append,
        firstOf_skip ofKind_blockComment hblock] at hfirst
      obtain ⟨hnone₁, hnone₂, hnone₃, hfirst⟩ := hfirst
      have hfree : ∀ recogniser ∈ (shared []).take 3, recogniser (c :: s) = .ok none := by
        simp only [shared, List.take_succ_cons, List.take_zero, List.forall_mem_cons, List.not_mem_nil,
          false_implies, implies_true, and_true]
        exact ⟨hnone₁, hnone₂, hnone₃⟩
      -- What a statement may begin with is a quoted name, an import, a mark or a name.
      rcases firstOf_cons_eq_some.mp hfirst with hquoted | ⟨hquoted, hfirst⟩
      · exact exists_scan_label_of_quoted hfree hquoted
      · have hquoted := quotedText_none_of_none hquoted
        rcases firstOf_cons_eq_some.mp hfirst with himport | ⟨himport, hfirst⟩
        · exact exists_scan_label_of_later hfree (firstOf_cons_eq_some.mpr
            (.inr ⟨hquoted, firstOf_cons_eq_some.mpr (.inl himport)⟩))
        · exact exists_scan_label_of_own (shared_double_eq_none hfree hquoted himport) hconnection
            (fun hkind => Text.begins_cons.mp (hpunct hkind)) hfirst

/-- A phrase begins with a backslash or with one of its characters. -/
theorem phrase_length_eq_zero {p : Phrase} {c : Char} (hbody : p.isBody c = false)
    (hescape : c ≠ '\\') (s : Text) : p.length (c :: s) = 0 := by
  simp [Phrase.length, Phrase.beginsAt, hbody, hescape]

/-- A punctuation is none of other characters. -/
theorem punctuation_eq_none {marks : List Char} {c : Char} (hc : c ∉ marks) (s : Text) :
    punctuation marks (c :: s) = .ok none := by
  rw [punctuation, ofLength_eq_none]
  simp [hc]

/-- No numeral and no boolean begins with white space. -/
theorem literal_eq_zero {c : Char} (hc : isBlank c = true) (s : Text) :
    literalLength numeralLength (c :: s) = 0 ∧ literalLength booleanLength (c :: s) = 0 := by
  have hword := not_isPlainWord_of_isBlank hc
  have hmark : c ∉ ['+', '-', 't', 'f'] := fun hmem => not_isBlank_of_mem rfl hmem hc
  simp only [List.mem_cons, List.not_mem_nil, or_false, not_or] at hmark
  constructor
  · simp [literalLength, numeralLength, unsignedLength, hmark, Text.run_cons,
      not_isDigit_of_not_isPlainWord hword]
  · simp [literalLength, booleanLength, List.isPrefixOf, Ne.symm hmark.2.2.1,
      Ne.symm hmark.2.2.2]

/-- No token begins with a character that its mode would skip. -/
theorem recognisers_eq_none {mode : Mode} {c : Char} (hc : mode.skips c = true) (s : Text) :
    ∀ recogniser ∈ mode.recognisers, recogniser (c :: s) = .ok none := by
  have hblank : isBlank c = true := by
    cases mode
    · exact isBlank_of_isInlineBlank hc
    · exact isBlank_of_isInlineBlank hc
    · exact hc
    · exact hc
  have hword := not_isWord_of_isBlank hblank
  have hplain := not_isPlainWord_of_isBlank hblank
  have hother {marks : List Char} (hmarks : marks.all (!isBlank ·) = true) : c ∉ marks :=
    fun hmem => not_isBlank_of_mem hmarks hmem hblank
  have hshared (hline : mode.IsLine) (marks : List QuoteMark) :
      ∀ recogniser ∈ shared marks, recogniser (c :: s) = .ok none := by
    have hinline : isInlineBlank c = true := (hline.skips c).symm.trans hc
    refine shared_eq_none (fun hmem => ?_) marks s
    have hall : sharedFronts.all (!isInlineBlank ·) = true := by decide
    have := List.all_eq_true.mp hall c hmem
    simp [hinline] at this
  cases mode with
  | declaration =>
      refine List.forall_mem_append.mpr ⟨hshared (.inl rfl) _, ?_⟩
      simp only [List.forall_mem_cons, List.not_mem_nil, false_implies, implies_true, and_true,
        ofLength_eq_none]
      refine ⟨?_, punctuation_eq_none (hother rfl) s, ?_⟩
      · have hmark : c ∉ ['<', '-'] := hother rfl
        simp only [List.mem_cons, List.not_mem_nil, or_false, not_or] at hmark
        simp [connectionLength, hmark]
      · refine phrase_length_eq_zero ?_ (by simpa using @hother ['\\'] rfl) s
        exact Bool.or_eq_false_iff.mpr ⟨hword, by simpa using @hother ['/', '*', '+', '-'] rfl⟩
  | label =>
      refine List.forall_mem_append.mpr ⟨hshared (.inr rfl) _, ?_⟩
      simp only [List.forall_mem_cons, List.not_mem_nil, false_implies, implies_true, and_true,
        ofLength_eq_none]
      refine ⟨punctuation_eq_none (hother rfl) s, ?_, (literal_eq_zero hblank s).1,
        (literal_eq_zero hblank s).2, ?_⟩
      · exact codeBlock_none (by simpa using @hother ['|'] rfl) s
      · refine phrase_length_eq_zero ?_ (by simpa using @hother ['\\'] rfl) s
        refine Bool.or_eq_false_iff.mpr ⟨hword, ?_⟩
        refine Bool.eq_false_iff.mpr fun hmem => ?_
        exact hother rfl (List.contains_iff_mem.mp hmem)
  | arguments =>
      simp only [recognisers, List.forall_mem_cons, List.not_mem_nil, false_implies, implies_true,
        and_true, lineComment, word, ofLength_eq_none]
      refine ⟨?_, punctuation_eq_none (hother rfl) s, ?_⟩
      · simp [commentLength, show c ≠ '#' by simpa using @hother ['#'] rfl]
      · have hmark : c ∉ ['[', ']'] := hother rfl
        simp only [List.mem_cons, List.not_mem_nil, or_false, not_or] at hmark
        simp [Text.run_cons, hplain, hmark]
  | constraints =>
      simp only [recognisers, List.forall_mem_cons, List.not_mem_nil, false_implies, implies_true,
        and_true, lineComment, word, ofLength_eq_none]
      refine ⟨?_, punctuation_eq_none (hother rfl) s, ?_⟩
      · simp [commentLength, show c ≠ '#' by simpa using @hother ['#'] rfl]
      · simp [Text.run_cons, hplain]

/-- A mode does not skip what a token of it begins with. -/
theorem skips_of_scan {mode : Mode} {c : Char} {s : Text} {lexeme : Lexeme}
    (h : mode.scan (c :: s) = .ok lexeme) : mode.skips c = false := by
  refine Bool.eq_false_iff.mpr fun hc => ?_
  rw [scan_eq_ok (List.cons_ne_nil c s), firstOf_eq_none (recognisers_eq_none hc s)] at h
  cases h

end Mode

end DiagramText
