import DiagramText.Proofs.Lexeme.Append

/-!
# The lexemes of each mode

A recogniser finds lexemes of one kind only, so a scan that found a kind tells
which recogniser found it and that the ones before it found nothing
(`Recogniser.firstOf_skip`).  Read from left to right that says what a lexeme
looks like, and from right to left that a text of that look is scanned so.
-/

namespace DiagramText

namespace Recogniser

/-- All that the recogniser finds is of this kind. -/
def OfKind (kind : TokenKind) (recogniser : Recogniser) : Prop :=
  ∀ s lexeme, recogniser s = .ok (some lexeme) → lexeme.kind = kind

theorem ofKind_ofLength {kind : TokenKind} {length : Text → Nat} :
    OfKind kind (ofLength kind length) := by
  intro s lexeme h
  rw [(ofLength_eq_some.mp h).1]

theorem ofKind_blockComment : OfKind .blockComment blockComment := by
  intro s lexeme h
  obtain ⟨_, body, _, rfl⟩ := blockComment_eq_some.mp h
  rfl

theorem ofKind_quotedText {marks : List QuoteMark} : OfKind .quoted (quotedText marks) := by
  intro s lexeme h
  obtain ⟨mark, _, rest, body, _, _, rfl⟩ := quotedText_eq_some.mp h
  rfl

theorem ofKind_codeBlock : OfKind .codeBlock codeBlock := by
  intro s lexeme h
  obtain ⟨style, language, tag, content, _, _, _, rfl⟩ := codeBlock_eq_some.mp h
  rfl

/-- What is found is of another kind, so the first recogniser found nothing. -/
theorem firstOf_skip {kind : TokenKind} {recogniser : Recogniser} {others : List Recogniser}
    {s : Text} {lexeme : Lexeme} (h : OfKind kind recogniser) (hkind : lexeme.kind ≠ kind) :
    firstOf (recogniser :: others) s = .ok (some lexeme) ↔
      recogniser s = .ok none ∧ firstOf others s = .ok (some lexeme) := by
  rw [firstOf_cons_eq_some]
  refine ⟨?_, .inr⟩
  rintro (hfound | hlater)
  · exact absurd (h s lexeme hfound) hkind
  · exact hlater

/-- Where none of the recognisers finds anything nothing is found. -/
theorem firstOf_eq_none {recognisers : List Recogniser} {s : Text}
    (h : ∀ recogniser ∈ recognisers, recogniser s = .ok none) :
    firstOf recognisers s = .ok none := by
  induction recognisers with
  | nil => rfl
  | cons recogniser others ih =>
      rw [List.forall_mem_cons] at h
      simp only [firstOf, h.1]
      exact ih h.2

/-- The further recognisers are asked where the first ones find nothing. -/
theorem firstOf_append (first others : List Recogniser) (s : Text) :
    firstOf (first ++ others) s =
      match firstOf first s with
      | .ok none => firstOf others s
      | found => found := by
  induction first with
  | nil => rfl
  | cons recogniser first ih =>
      simp only [List.cons_append, firstOf]
      cases recogniser s with
      | error fault => rfl
      | ok found =>
          cases found with
          | none => exact ih
          | some lexeme => rfl

/-- What is found one of the recognisers finds. -/
theorem exists_of_firstOf {recognisers : List Recogniser} {s : Text} {lexeme : Lexeme}
    (h : firstOf recognisers s = .ok (some lexeme)) :
    ∃ recogniser ∈ recognisers, recogniser s = .ok (some lexeme) := by
  induction recognisers with
  | nil => exact (firstOf_nil_ne_some h).elim
  | cons recogniser others ih =>
      rcases firstOf_cons_eq_some.mp h with hfirst | ⟨_, hlater⟩
      · exact ⟨recogniser, List.mem_cons_self, hfirst⟩
      · obtain ⟨later, hmem, hfound⟩ := ih hlater
        exact ⟨later, List.mem_cons_of_mem _ hmem, hfound⟩

/-- What is found is of the kind of one of the recognisers. -/
theorem kind_of_firstOf {P : TokenKind → Prop} {recognisers : List Recogniser} {s : Text}
    {lexeme : Lexeme}
    (hkinds : ∀ recogniser ∈ recognisers, ∃ kind, P kind ∧ OfKind kind recogniser)
    (h : firstOf recognisers s = .ok (some lexeme)) : P lexeme.kind := by
  obtain ⟨recogniser, hmem, hfound⟩ := exists_of_firstOf h
  obtain ⟨kind, hkind, hof⟩ := hkinds recogniser hmem
  rw [hof s lexeme hfound]
  exact hkind

/-- The recognisers of further kinds find nothing of this one. -/
theorem firstOf_eq_some_iff {kind : TokenKind} {length : Text → Nat} {others : List Recogniser}
    {s : Text} {n : Nat} (hothers : ∀ recogniser ∈ others, ∃ k ≠ kind, OfKind k recogniser) :
    firstOf (ofLength kind length :: others) s = .ok (some ⟨kind, n⟩) ↔ length s = n ∧ n ≠ 0 := by
  rw [firstOf_cons_eq_some, ofLength_eq_some]
  constructor
  · rintro (⟨h, hn⟩ | ⟨_, hlater⟩)
    · obtain ⟨_, rfl⟩ := Lexeme.mk.inj h
      exact ⟨rfl, hn⟩
    · have hkind : kind ≠ kind := kind_of_firstOf hothers hlater
      exact absurd rfl hkind
  · rintro ⟨rfl, hn⟩
    exact .inl ⟨rfl, hn⟩

end Recogniser

open Recogniser

/-- A character before which a literal may end is part of no literal. -/
theorem begins_of_isLiteralEnd {rest : Text} (h : isLiteralEnd rest = true) :
    rest.Begins fun c => isPlainWord c = false ∧ c ≠ '.' := by
  cases rest with
  | nil => exact Text.Begins.nil
  | cons c rest =>
      simp only [isLiteralEnd, Bool.or_eq_true, beq_iff_eq] at h
      refine Text.begins_cons.mpr ?_
      rcases h with hblank | rfl
      · refine ⟨not_isPlainWord_of_isBlank hblank, ?_⟩
        rintro rfl
        exact absurd hblank (by decide)
      · decide

namespace Mode

/-- A lexeme of a kind that statements and labels do not share comes after the shared ones. -/
theorem firstOf_shared {marks : List QuoteMark} {others : List Recogniser} {s : Text}
    {lexeme : Lexeme}
    (hkind : lexeme.kind ∉ [TokenKind.terminator, .comment, .blockComment, .quoted, .importRef]) :
    firstOf (shared marks ++ others) s = .ok (some lexeme) ↔
      (∀ recogniser ∈ shared marks, recogniser s = .ok none) ∧
        firstOf others s = .ok (some lexeme) := by
  simp only [List.mem_cons, List.not_mem_nil, or_false, not_or] at hkind
  obtain ⟨h₁, h₂, h₃, h₄, h₅⟩ := hkind
  simp only [shared, List.cons_append, List.nil_append, List.forall_mem_cons, List.not_mem_nil,
    false_implies, implies_true, and_true]
  rw [firstOf_skip ofKind_ofLength h₁, lineComment, firstOf_skip ofKind_ofLength h₂,
    firstOf_skip ofKind_blockComment h₃, firstOf_skip ofKind_quotedText h₄,
    firstOf_skip ofKind_ofLength h₅]
  simp only [and_assoc]

/-- Whether the mode is one of the line: it skips blanks but no line breaks. -/
def IsLine (mode : Mode) : Prop :=
  mode = .declaration ∨ mode = .label

theorem IsLine.skips {mode : Mode} (h : mode.IsLine) (c : Char) :
    mode.skips c = isInlineBlank c := by
  rcases h with rfl | rfl <;> rfl

/-- The recognisers of comments, and of what comes before them. -/
def commentRecognisers : List Recogniser :=
  [.ofLength .terminator terminatorLength, lineComment, blockComment]

/-- The modes of the line begin with the same recognisers, and only these find comments. -/
theorem IsLine.recognisers_eq {mode : Mode} (h : mode.IsLine) :
    ∃ others, mode.recognisers = commentRecognisers ++ others ∧
      ∀ recogniser ∈ others, ∃ kind, kind.isComment = false ∧ OfKind kind recogniser := by
  rcases h with rfl | rfl
  · refine ⟨[quotedText _, .ofLength .importRef importLength] ++ _, rfl, ?_⟩
    simp only [List.forall_mem_append, List.forall_mem_cons, List.not_mem_nil, false_implies,
      implies_true, and_true]
    exact ⟨⟨⟨.quoted, rfl, ofKind_quotedText⟩, ⟨.importRef, rfl, ofKind_ofLength⟩⟩,
      ⟨.connection, rfl, ofKind_ofLength⟩, ⟨.punct, rfl, ofKind_ofLength⟩,
      ⟨.ident, rfl, ofKind_ofLength⟩⟩
  · refine ⟨[quotedText _, .ofLength .importRef importLength] ++ _, rfl, ?_⟩
    simp only [List.forall_mem_append, List.forall_mem_cons, List.not_mem_nil, false_implies,
      implies_true, and_true]
    exact ⟨⟨⟨.quoted, rfl, ofKind_quotedText⟩, ⟨.importRef, rfl, ofKind_ofLength⟩⟩,
      ⟨.punct, rfl, ofKind_ofLength⟩, ⟨.codeBlock, rfl, ofKind_codeBlock⟩,
      ⟨.number, rfl, ofKind_ofLength⟩, ⟨.boolean, rfl, ofKind_ofLength⟩,
      ⟨.text, rfl, ofKind_ofLength⟩⟩

/-- Only the recognisers of comments find comments. -/
theorem comment_of_recogniser (mode : Mode) : ∀ recogniser ∈ mode.recognisers,
    recogniser = lineComment ∨ recogniser = blockComment ∨
      ∃ kind, kind.isComment = false ∧ OfKind kind recogniser := by
  have hline : mode.IsLine → ∀ recogniser ∈ mode.recognisers,
      recogniser = lineComment ∨ recogniser = blockComment ∨
        ∃ kind, kind.isComment = false ∧ OfKind kind recogniser := by
    intro hmode
    obtain ⟨others, hrecognisers, hothers⟩ := hmode.recognisers_eq
    rw [hrecognisers, commentRecognisers]
    simp only [List.forall_mem_append, List.forall_mem_cons, List.not_mem_nil, false_implies,
      implies_true, and_true, true_or, or_true]
    refine ⟨.inr (.inr ⟨.terminator, rfl, ofKind_ofLength⟩), ?_⟩
    exact fun recogniser hmem => .inr (.inr (hothers recogniser hmem))
  have hlist : ∀ marks p, ∀ recogniser ∈ [lineComment, punctuation marks, word p],
      recogniser = lineComment ∨ recogniser = blockComment ∨
        ∃ kind, kind.isComment = false ∧ OfKind kind recogniser := by
    intro marks p
    simp only [List.forall_mem_cons, List.not_mem_nil, false_implies, implies_true, and_true, true_or,
      true_and]
    exact ⟨.inr (.inr ⟨.punct, rfl, ofKind_ofLength⟩), .inr (.inr ⟨.ident, rfl, ofKind_ofLength⟩)⟩
  cases mode with
  | declaration => exact hline (.inl rfl)
  | label => exact hline (.inr rfl)
  | arguments => exact hlist _ _
  | constraints => exact hlist _ _

/-- In whatever mode a comment is found, the recogniser of its kind finds it. -/
theorem comment_of_firstOf {mode : Mode} {s : Text} {lexeme : Lexeme}
    (h : firstOf mode.recognisers s = .ok (some lexeme)) :
    (lexeme.kind = .comment → lineComment s = .ok (some lexeme)) ∧
      (lexeme.kind = .blockComment → blockComment s = .ok (some lexeme)) := by
  obtain ⟨recogniser, hmem, hfound⟩ := exists_of_firstOf h
  rcases comment_of_recogniser mode recogniser hmem with rfl | rfl | ⟨kind, hkind, hof⟩
  · refine ⟨fun _ => hfound, fun hblock => ?_⟩
    have hline : lexeme.kind = .comment := ofKind_ofLength s lexeme hfound
    cases hblock.symm.trans hline
  · refine ⟨fun hline => ?_, fun _ => hfound⟩
    have hblock : lexeme.kind = .blockComment := ofKind_blockComment s lexeme hfound
    cases hline.symm.trans hblock
  · obtain rfl := hof s lexeme hfound
    constructor <;> intro hcomment <;> rw [hcomment] at hkind <;> cases hkind

/-- A comment that one mode of the line finds the other finds too. -/
theorem IsLine.scan_comment {mode mode' : Mode} {s : Text} {lexeme : Lexeme} (h : mode.IsLine)
    (h' : mode'.IsLine) (hscan : mode.scan s = .ok lexeme)
    (hcomment : lexeme.kind.isComment = true) : mode'.scan s = .ok lexeme := by
  have hs : s ≠ [] := by
    rintro rfl
    rw [← Except.ok.inj hscan] at hcomment
    cases hcomment
  obtain ⟨others, heq, hkinds⟩ := h.recognisers_eq
  obtain ⟨others', heq', _⟩ := h'.recognisers_eq
  rw [scan_eq_ok hs, heq, firstOf_append] at hscan
  rw [scan_eq_ok hs, heq', firstOf_append]
  split at hscan
  · have hplain : lexeme.kind.isComment = false := kind_of_firstOf hkinds hscan
    cases hplain.symm.trans hcomment
  · next hfound => exact hscan

/-- A name is a phrase where no shared lexeme, no connection and no mark stands. -/
theorem scan_ident {s : Text} {n : Nat} :
    Mode.declaration.scan s = .ok ⟨.ident, n⟩ ↔
      (∀ recogniser ∈ shared [.double, .single], recogniser s = .ok none) ∧
        connectionLength s = 0 ∧
        punctuation ['\x7b', '\x7d', '(', ')', ':', '.', '[', ']'] s = .ok none ∧
        namePhrase.length s = n ∧ n ≠ 0 := by
  cases s with
  | nil =>
      constructor
      · intro h
        cases h
      · rintro ⟨_, _, _, rfl, hn⟩
        exact absurd rfl hn
  | cons c s =>
      rw [scan_eq_ok (List.cons_ne_nil c s), recognisers, firstOf_shared (by simp),
        firstOf_skip ofKind_ofLength (by simp), punctuation, firstOf_skip ofKind_ofLength (by simp),
        firstOf_eq_some_iff (by simp)]
      simp only [ofLength_eq_none]

/-- A label text is a phrase where no shared lexeme, no mark and no other literal stands. -/
theorem scan_text {s : Text} {n : Nat} :
    Mode.label.scan s = .ok ⟨.text, n⟩ ↔
      (∀ recogniser ∈ shared [.double], recogniser s = .ok none) ∧
        punctuation ['\x7b', '\x7d', '['] s = .ok none ∧ codeBlock s = .ok none ∧
        literalLength numeralLength s = 0 ∧ literalLength booleanLength s = 0 ∧
        labelPhrase.length s = n ∧ n ≠ 0 := by
  cases s with
  | nil =>
      constructor
      · intro h
        cases h
      · rintro ⟨_, _, _, _, _, rfl, hn⟩
        exact absurd rfl hn
  | cons c s =>
      rw [scan_eq_ok (List.cons_ne_nil c s), recognisers, firstOf_shared (by simp), punctuation,
        firstOf_skip ofKind_ofLength (by simp), firstOf_skip ofKind_codeBlock (by simp),
        firstOf_skip ofKind_ofLength (by simp), firstOf_skip ofKind_ofLength (by simp),
        firstOf_eq_some_iff (by simp)]
      simp only [ofLength_eq_none]

/-- A terminator is found where one stands, before all else. -/
theorem scan_terminator {s : Text} {n : Nat} :
    Mode.declaration.scan s = .ok ⟨.terminator, n⟩ ↔ terminatorLength s = n ∧ n ≠ 0 := by
  cases s with
  | nil =>
      constructor
      · intro h
        cases h
      · rintro ⟨rfl, hn⟩
        exact absurd rfl hn
  | cons c s =>
      rw [scan_eq_ok (List.cons_ne_nil c s), recognisers, shared, List.cons_append]
      refine firstOf_eq_some_iff ?_
      simp only [List.cons_append, List.nil_append, List.forall_mem_cons, List.not_mem_nil,
        false_implies, implies_true, and_true]
      exact ⟨⟨.comment, by simp, ofKind_ofLength⟩, ⟨.blockComment, by simp, ofKind_blockComment⟩,
        ⟨.quoted, by simp, ofKind_quotedText⟩, ⟨.importRef, by simp, ofKind_ofLength⟩,
        ⟨.connection, by simp, ofKind_ofLength⟩, ⟨.punct, by simp, ofKind_ofLength⟩,
        ⟨.ident, by simp, ofKind_ofLength⟩⟩

/-- A terminator begins with a line break or a semicolon, so a literal may end before it. -/
theorem isLiteralEnd_of_scan_terminator {s : Text} {n : Nat}
    (h : Mode.declaration.scan s = .ok ⟨.terminator, n⟩) : isLiteralEnd s = true := by
  obtain ⟨rfl, hn⟩ := scan_terminator.mp h
  unfold terminatorLength at hn
  split at hn
  · rfl
  · unfold breakLength at hn
    split at hn
    · rfl
    · rfl
    · rfl
    · exact absurd rfl hn

/-- A free text that reads as a number or a boolean does not stand where such a literal may
end. -/
theorem not_isLiteralEnd_of_scan_text {raw rest : Text}
    (h : Mode.label.scan (raw ++ rest) = .ok ⟨.text, raw.length⟩)
    (hliteral : readsAsLiteral raw = true) : isLiteralEnd rest = false := by
  obtain ⟨_, _, _, hnumber, hboolean, _, hne⟩ := scan_text.mp h
  refine Bool.eq_false_iff.mpr fun hend => ?_
  have hraw : raw ≠ [] := fun hnil => hne (congrArg List.length hnil)
  have hwhole : ∀ length : Text → Nat, length raw = raw.length →
      literalLength length raw = raw.length := by
    intro length hlength
    simp [literalLength, hlength, isLiteralEnd]
  simp only [readsAsLiteral, Bool.and_eq_true, Bool.or_eq_true, beq_iff_eq] at hliteral
  rcases hliteral.2 with hnumeral | htrue
  · have hsame := numeralLength_append ((begins_of_isLiteralEnd hend).imp fun _ hc =>
      ⟨not_isDigit_of_not_isPlainWord hc.1, hc.2⟩) hraw
    rw [literalLength_append hsame (numeralLength_le_length raw) (.inl hend),
      hwhole _ hnumeral] at hnumber
    exact hne hnumber
  · have hsame := booleanLength_append (s := raw) ((begins_of_isLiteralEnd hend).imp fun _ hc =>
      not_isAlphanum_of_not_isPlainWord hc.1)
    rw [literalLength_append hsame (booleanLength_le_length raw) (.inl hend),
      hwhole _ htrue] at hboolean
    exact hne hboolean

end Mode

end DiagramText
