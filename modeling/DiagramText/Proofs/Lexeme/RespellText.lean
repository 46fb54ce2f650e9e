import DiagramText.Canonical
import DiagramText.Proofs.Lexeme.Shape

/-!
# Free texts and comments that are spelled again

The free text of a label is the one token that depends on what follows it: one
that would read as a number or a boolean is scanned as a text only where no such
literal may end (`TextEnds.literal`).

A comment is kept without the marks around it.  Between its marks again it is
scanned as one comment, a line comment at the end of a text
(`scan_lineComment`, `scan_blockComment`).
-/

namespace DiagramText

open Recogniser Text

/-! ## Free texts -/

/-- The text is one free text, and no part of it at its front is a literal that ends there. -/
structure IsText (x : Text) : Prop where
  filled : x ≠ []
  length : labelPhrase.length x = x.length
  plain : '@' ∉ x
  number : numeralLength x < x.length → literalLength numeralLength x = 0
  boolean : booleanLength x < x.length → literalLength booleanLength x = 0

/-- What may follow a free text: nothing that goes on with it, that makes an import of it, that a
backslash at its end would escape, or before which a literal that it reads as may end. -/
structure TextEnds (x u : Text) : Prop where
  extent : labelPhrase.extent 0 u = 0
  mark : u.Begins (· ≠ '@')
  escape : ∀ c, u.head? = some c → labelPhrase.isEscapable c = true → '\\' ∉ x
  literal : readsAsLiteral x = true → isLiteralEnd u = false

/-- No element of a free text begins where none is counted. -/
theorem begins_of_extent {u : Text} (h : labelPhrase.extent 0 u = 0) :
    u.Begins fun c => labelPhrase.isBody c = false := by
  cases u with
  | nil => exact Text.Begins.nil
  | cons c u =>
      refine Text.begins_cons.mpr (Bool.eq_false_iff.mpr fun hbody => ?_)
      rw [Phrase.extent_cons] at h
      have hfree : labelPhrase.isBarred (c :: u) = false := rfl
      simp only [hbody, hfree, Bool.not_false, Bool.and_self, if_true] at h
      split at h <;> omega

/-- What does not go on with a free text goes on with no numeral and no boolean. -/
theorem begins_literal {u : Text} (h : labelPhrase.extent 0 u = 0) :
    u.Begins fun c => isPlainWord c = false ∧ c ≠ '.' := by
  refine (begins_of_extent h).imp fun c hc => ?_
  simp only [labelPhrase, Bool.or_eq_false_iff] at hc
  constructor
  · refine Bool.eq_false_iff.mpr fun hword => ?_
    rw [isWord_of_isPlainWord hword] at hc
    cases hc.1
  · rintro rfl
    exact absurd hc.2 (by decide)

theorem numeralLength_extent {x u : Text} (h : labelPhrase.extent 0 u = 0) (hx : x ≠ []) :
    numeralLength (x ++ u) = numeralLength x :=
  numeralLength_append ((begins_literal h).imp fun _ hc =>
    ⟨not_isDigit_of_not_isPlainWord hc.1, hc.2⟩) hx

theorem booleanLength_extent {x u : Text} (h : labelPhrase.extent 0 u = 0) :
    booleanLength (x ++ u) = booleanLength x :=
  booleanLength_append ((begins_literal h).imp fun _ hc => not_isAlphanum_of_not_isPlainWord hc.1)

/-- A text begins neither like a mark nor like what statements and labels share, up to the quotes
and points that a text may begin with. -/
theorem labelPhrase_front {c : Char} {s : Text} (h : labelPhrase.beginsAt (c :: s) = true) :
    c ∉ [';', '\n', '\r', '#', '\x22', '@', '|', '\x7b', '\x7d', '['] := by
  intro hmem
  simp only [Phrase.beginsAt, labelPhrase, Bool.or_eq_true, Bool.and_eq_true, beq_iff_eq] at h
  rcases h with ⟨rfl, _⟩ | ⟨hbody | hbody, _⟩
  · exact absurd hmem (by decide)
  · have hall : [';', '\n', '\r', '#', '\x22', '@', '|', '\x7b', '\x7d', '['].all
        (!isWord ·) = true := by decide
    simpa [hbody] using List.all_eq_true.mp hall c hmem
  · have hall : ['/', '*', '+', '-', '(', ')', '\\', ':', '.', '%', '&', '?', '\x27', ','].all
        (· ∉ [';', '\n', '\r', '#', '\x22', '@', '|', '\x7b', '\x7d', '[']) = true := by
      decide
    have hmark := List.all_eq_true.mp hall c (List.contains_iff_mem.mp hbody)
    exact absurd hmem (of_decide_eq_true hmark)

theorem IsText.of_spells {x : Text} (h : Mode.label.Spells .text x) : IsText x := by
  have hx := h.ne_nil (by decide)
  obtain ⟨rest, hscan⟩ := h
  obtain ⟨_, _, _, hnumber, hboolean, hlength, hne⟩ := Mode.scan_text.mp hscan
  have hrest := Phrase.regular_labelPhrase.extent_drop_length (hlength ▸ hne)
  rw [hlength, List.drop_left] at hrest
  have htake := Phrase.regular_labelPhrase.length_take (hlength ▸ hne)
  rw [hlength, List.take_left] at htake
  refine ⟨hx, htake, fun hmem => ?_, fun hlt => ?_, fun hlt => ?_⟩
  · have hat := (Phrase.row_of_length hx htake).1.forall_mem (q := (· == '@')) (by decide)
      (fun c hc => ?_) (fun c hc => ?_) (fun c hc => ?_) _ hmem
    · cases hat
    all_goals
      refine beq_eq_false_iff_ne.mpr ?_
      rintro rfl
      exact absurd hc (by decide)
  · rw [← hnumber, literalLength_append (numeralLength_extent hrest hx) (numeralLength_le_length x)
      (.inr hlt)]
  · rw [← hboolean, literalLength_append (booleanLength_extent hrest) (booleanLength_le_length x)
      (.inr hlt)]

/-- A free text is no literal where it ends. -/
theorem literalLength_eq_zero {length : Text → Nat} {x u : Text} (hsame : length (x ++ u) = length x)
    (hle : length x ≤ x.length) (hpart : length x < x.length → literalLength length x = 0)
    (hwhole : length x = x.length → isLiteralEnd u = false) :
    literalLength length (x ++ u) = 0 := by
  rcases Nat.lt_or_eq_of_le hle with hlt | heq
  · rw [literalLength_append hsame hle (.inr hlt), hpart hlt]
  · rw [literalLength, hsame, heq, List.drop_left, hwhole heq]
    rfl

/-- No import begins at a free text. -/
theorem IsText.importLength {x u : Text} (h : IsText x) (hu : TextEnds x u) :
    DiagramText.importLength (x ++ u) = 0 := by
  have hmark : u.Begins fun c => c ∉ "...@".toList := by
    intro c hc hmem
    have hdot := (begins_literal hu.extent c hc).2
    have hat := hu.mark c hc
    simp [hdot, hat] at hmem
  have hprefix : ∀ mark : Text, '@' ∈ mark → mark ⊆ "...@".toList →
      mark.isPrefixOf (x ++ u) = false := by
    intro mark hat hsubset
    rw [isPrefixOf_append (hmark.imp fun c hc hmem => hc (hsubset hmem))]
    refine Bool.eq_false_iff.mpr fun hmark => ?_
    exact h.plain ((List.isPrefixOf_iff_prefix.mp hmark).subset hat)
  rw [importLength_eq, hprefix _ (by decide) (List.Subset.refl _), hprefix ['@'] (by decide) (by decide)]
  rfl

/-- A free text is scanned where it ends. -/
theorem IsText.scan {x u : Text} (h : IsText x) (hu : TextEnds x u) :
    Mode.label.scan (x ++ u) = .ok ⟨.text, x.length⟩ := by
  have himport := h.importLength hu
  have hlength : labelPhrase.length (x ++ u) = x.length :=
    (Phrase.regular_labelPhrase.length_append hu.extent hu.escape (fun _ _ _ => rfl)
      h.filled).trans h.length
  have hnumber : literalLength numeralLength (x ++ u) = 0 := by
    refine literalLength_eq_zero (numeralLength_extent hu.extent h.filled) (numeralLength_le_length x)
      h.number fun hwhole => hu.literal ?_
    simp [readsAsLiteral, h.filled, hwhole]
  have hboolean : literalLength booleanLength (x ++ u) = 0 := by
    refine literalLength_eq_zero (booleanLength_extent hu.extent) (booleanLength_le_length x)
      h.boolean fun hwhole => hu.literal ?_
    simp [readsAsLiteral, h.filled, hwhole]
  obtain ⟨c, s, rfl⟩ := List.exists_cons_of_ne_nil h.filled
  have hfront := labelPhrase_front (s := s) (c := c) (Phrase.length_ne_zero_iff.mp
    (h.length ▸ Nat.succ_ne_zero _))
  simp only [List.mem_cons, List.not_mem_nil, or_false, not_or] at hfront
  obtain ⟨hsemicolon, hfeed, hreturn, hnumeral, hquote, _, hbar, hopen, hclose, hbracket⟩ := hfront
  refine Mode.scan_text.mpr ⟨?_, ?_, codeBlock_none hbar _, hnumber, hboolean, hlength,
    Nat.succ_ne_zero _⟩
  · simp only [Mode.shared, List.forall_mem_cons, List.not_mem_nil, false_implies, implies_true,
      and_true, ofLength_eq_none, lineComment]
    refine ⟨?_, ?_, ?_, ?_, himport⟩
    · simp [terminatorLength, breakLength, hsemicolon, hfeed, hreturn]
    · simp [commentLength, hnumeral]
    · simp [blockComment, commentFence, List.isPrefixOf, Ne.symm hquote]
    · simp [quotedText, QuoteMark.char, Ne.symm hquote]
  · exact Mode.punctuation_eq_none (by simp [hopen, hclose, hbracket]) _

/-! ## Comments -/

namespace Text

/-- Where a search finds a mark the mark stands. -/
theorem findUnescaped?_stands {mark s : Text} {escaped : Bool} {k : Nat}
    (h : findUnescaped? mark escaped s = some k) : mark <+: s.drop k := by
  induction s generalizing escaped k with
  | nil => cases h
  | cons c s ih =>
      rw [findUnescaped?] at h
      split at h
      · next hmark =>
          obtain rfl := Option.some.inj h
          exact List.isPrefixOf_iff_prefix.mp (Bool.and_eq_true_iff.mp hmark).2
      · obtain ⟨j, hj, rfl⟩ := Option.map_eq_some_iff.mp h
        exact ih hj

/-- What is found within a text is found in the text alone. -/
theorem findUnescaped?_of_append {mark s rest : Text} {escaped : Bool} {k : Nat}
    (hmark : mark ≠ []) (h : findUnescaped? mark escaped (s ++ rest) = some k)
    (hle : k + mark.length ≤ s.length) : findUnescaped? mark escaped s = some k := by
  induction s generalizing escaped k with
  | nil => exact absurd (List.length_eq_zero_iff.mp (Nat.add_eq_zero_iff.mp (Nat.le_zero.mp hle)).2) hmark
  | cons c s ih =>
      simp only [List.cons_append, findUnescaped?, List.length_cons] at h hle ⊢
      rw [isPrefixOf_cons_append_of_le (by omega)] at h
      split at h
      · next hfound => rw [if_pos hfound, h]
      · next hfound =>
          obtain ⟨j, hj, rfl⟩ := Option.map_eq_some_iff.mp h
          rw [if_neg hfound, ih hj (by omega), Option.map_some]

end Text

/-- The item of a comment that stands between its marks again: a line comment holds no line break,
and a block comment no fence but behind a backslash. -/
inductive IsRemark : Item → Prop
  | line {body : Text} {span : Span} (unbroken : body.all (!isBreak ·) = true) :
      IsRemark (.comment body span)
  | block {body : Text} {span : Span}
      (closes : findUnescaped? commentFence false (body ++ commentFence) = some body.length) :
      IsRemark (.blockComment body span)

/-- What may stand between a line and the next. -/
def lineEnds : List Text := [[], ['\n'], ['\r'], ['\r', '\n']]

theorem mem_lineEnds {x rest : Text} (h : breakLength (x ++ rest) = x.length) : x ∈ lineEnds := by
  unfold breakLength at h
  rcases x with _ | ⟨c, _ | ⟨d, _ | ⟨e, x⟩⟩⟩
  · simp [lineEnds]
  all_goals
    simp only [List.cons_append, List.nil_append, List.length_cons, List.length_nil] at h
    split at h
  all_goals simp_all [lineEnds]

/-- A line comment goes up to a line break, and ends with it. -/
theorem lineComment_of_spells {mode : Mode} {x : Text} (h : mode.Spells .comment x) :
    ∃ ends ∈ lineEnds, x = lineCommentSource ((x.drop 1).takeWhile (!isBreak ·)) ++ ends := by
  obtain ⟨rest, hfirst⟩ := h.firstOf (by decide)
  have hlength := ofLength_eq_some.mp ((Mode.comment_of_firstOf hfirst).1 rfl)
  obtain ⟨hlength, hsome⟩ : x.length = commentLength (x ++ rest) ∧ commentLength (x ++ rest) ≠ 0 :=
    ⟨congrArg Lexeme.length hlength.1, hlength.2⟩
  cases x with
  | nil => exact absurd hlength.symm hsome
  | cons c s =>
      obtain rfl : c = '#' := by
        by_cases hc : c = '#'
        · exact hc
        · exact absurd (by simp [commentLength, hc]) hsome
      simp only [List.cons_append, commentLength, List.length_cons] at hlength
      -- The stretch without breaks lies in the comment, and what is left of it is the break.
      have hrun : run (!isBreak ·) s = run (!isBreak ·) (s ++ rest) := by
        have hshorter : run (!isBreak ·) s = min s.length (run (!isBreak ·) (s ++ rest)) :=
          run_of_append
        omega
      have hends : breakLength (s.dropWhile (!isBreak ·) ++ rest) =
          (s.dropWhile (!isBreak ·)).length := by
        have hdrop : (s ++ rest).drop (run (!isBreak ·) s) = s.dropWhile (!isBreak ·) ++ rest := by
          rw [List.drop_append_of_le_length (run_le_length _ s), drop_run]
        rw [← hrun, hdrop] at hlength
        rw [← drop_run, List.length_drop, drop_run]
        omega
      refine ⟨_, mem_lineEnds hends, ?_⟩
      simp [lineCommentSource]

/-- A block comment is closed by the first fence that no backslash precedes. -/
theorem blockComment_of_spells {mode : Mode} {x : Text} (h : mode.Spells .blockComment x) :
    ∃ body, x = blockCommentSource body ∧
      findUnescaped? commentFence false (body ++ commentFence) = some body.length := by
  obtain ⟨rest, hfirst⟩ := h.firstOf (by decide)
  have hblock := (Mode.comment_of_firstOf hfirst).2 rfl
  obtain ⟨hopens, k, hk, hlexeme⟩ := blockComment_eq_some.mp hblock
  have hlength : x.length = 3 + k + 3 := (Lexeme.mk.inj hlexeme).2
  have hfence : commentFence.length = 3 := rfl
  have hopening : commentFence = x.take 3 := by
    have hfront := List.prefix_iff_eq_take.mp (List.isPrefixOf_iff_prefix.mp hopens)
    rwa [hfence, List.take_append_of_le_length (by omega)] at hfront
  rw [List.drop_append_of_le_length (by omega)] at hk
  have hk := findUnescaped?_of_append (by decide) hk (by rw [List.length_drop]; omega)
  have hclosing : commentFence = (x.drop 3).drop k :=
    (findUnescaped?_stands hk).eq_of_length (by simp only [List.length_drop]; omega)
  have hwhole : (x.drop 3).take k ++ commentFence = x.drop 3 := by
    rw [hclosing, List.take_append_drop]
  have hlong : ((x.drop 3).take k).length = k := by
    rw [List.length_take, List.length_drop]
    omega
  refine ⟨(x.drop 3).take k, ?_, ?_⟩
  · rw [blockCommentSource, List.append_assoc, hwhole, hopening, List.take_append_drop]
  · rw [hwhole, hlong]
    exact hk

/-- The text of a comment is the source of its item, with at most a line break after a line
comment. -/
theorem source_of_isComment {token : Token} (h : token.IsComment) :
    (∃ body, ∃ ends ∈ lineEnds, token.text = lineCommentSource body ++ ends ∧
      body.all (!isBreak ·) = true ∧ Grammar.commentItem token = .comment body token.span) ∨
    ∃ body, token.text = blockCommentSource body ∧
      findUnescaped? commentFence false (body ++ commentFence) = some body.length ∧
      Grammar.commentItem token = .blockComment body token.span := by
  obtain ⟨hcomment, mode, hspells⟩ := h
  by_cases hline : token.kind = .comment
  · obtain ⟨ends, hends, htext⟩ := lineComment_of_spells (hline ▸ hspells)
    refine .inl ⟨_, ends, hends, htext, List.all_takeWhile, ?_⟩
    rw [Grammar.commentItem, if_pos hline]
  · have hkind : token.kind = .blockComment := by
      simp only [TokenKind.isComment, Bool.or_eq_true, beq_iff_eq] at hcomment
      exact hcomment.resolve_left hline
    obtain ⟨body, htext, hcloses⟩ := blockComment_of_spells (hkind ▸ hspells)
    refine .inr ⟨body, htext, hcloses, ?_⟩
    rw [Grammar.commentItem, if_neg hline, htext]
    simp [blockCommentSource, commentFence]

theorem IsRemark.of_isComment {token : Token} (h : token.IsComment) :
    IsRemark (Grammar.commentItem token) := by
  rcases source_of_isComment h with ⟨body, _, _, _, hunbroken, hitem⟩ | ⟨body, _, hcloses, hitem⟩
  · rw [hitem]
    exact .line hunbroken
  · rw [hitem]
    exact .block hcloses

namespace Mode

variable {mode : Mode}

/-- What the recognisers of comments find is scanned in a mode of the line. -/
theorem IsLine.scan_of_comment (hmode : mode.IsLine) {x : Text} (hx : x ≠ []) {lexeme : Lexeme}
    (h : firstOf commentRecognisers x = .ok (some lexeme)) : mode.scan x = .ok lexeme := by
  obtain ⟨others, hrecognisers, _⟩ := hmode.recognisers_eq
  rw [scan_eq_ok hx, hrecognisers, firstOf_append, h]

/-- A line comment is scanned at the end of a text. -/
theorem IsLine.scan_lineComment (hmode : mode.IsLine) {body : Text}
    (h : body.all (!isBreak ·) = true) :
    mode.scan (lineCommentSource body) = .ok ⟨.comment, (lineCommentSource body).length⟩ := by
  have hlength : commentLength (lineCommentSource body) = (lineCommentSource body).length := by
    have hrun := run_eq_length_iff.mpr h
    simp only [lineCommentSource, List.singleton_append, commentLength, hrun, List.drop_length,
      breakLength, List.length_cons]
    omega
  refine hmode.scan_of_comment (List.cons_ne_nil _ _) ?_
  refine firstOf_cons_eq_some.mpr (.inr ⟨rfl, ?_⟩)
  refine firstOf_cons_eq_some.mpr (.inl (ofLength_eq_some.mpr ?_))
  exact ⟨congrArg _ hlength.symm, hlength ▸ Nat.succ_ne_zero _⟩

/-- A block comment is scanned again. -/
theorem IsLine.scan_blockComment (hmode : mode.IsLine) {body : Text}
    (h : findUnescaped? commentFence false (body ++ commentFence) = some body.length) :
    mode.scan (blockCommentSource body) = .ok ⟨.blockComment, (blockCommentSource body).length⟩ := by
  refine hmode.scan_of_comment (List.cons_ne_nil _ _) ?_
  refine firstOf_cons_eq_some.mpr (.inr ⟨rfl, ?_⟩)
  refine firstOf_cons_eq_some.mpr (.inr ⟨rfl, ?_⟩)
  refine firstOf_cons_eq_some.mpr (.inl (blockComment_eq_some.mpr ⟨rfl, body.length, h, ?_⟩))
  simp only [blockCommentSource, commentFence, List.length_append, List.length_cons, List.length_nil]

/-- Looking ahead from the front of a comment passes it and comes to the end. -/
theorem Finds.of_comment {x : Text} {lexeme : Lexeme}
    (hscan : mode.scan x = .ok lexeme) (hcomment : lexeme.kind.isComment = true)
    (hlength : lexeme.length = x.length) (hends : (lexeme.cut x).endsLine = false) :
    mode.Finds x [(lexeme.cut x).remark] false ⟨.eof, 0⟩ [] := by
  have hstrip : mode.strip x = x := by
    cases x with
    | nil => rfl
    | cons c s => exact strip_eq_self (Text.begins_cons.mpr (skips_of_scan hscan))
  have hlater : mode.Finds ((mode.strip x).drop lexeme.length) [] false ⟨.eof, 0⟩ [] := by
    rw [hstrip, hlength, List.drop_length]
    exact finds_nil
  have hfinds := Finds.comment (by rw [hstrip]; exact hscan) hcomment hlater
  rwa [hstrip, hends, Bool.or_false] at hfinds

/-- Looking ahead from the front of the source of a remark passes the remark and comes to the
end. -/
theorem Finds.of_remark (hmode : mode.IsLine) {item : Item} {x : Text} (h : IsRemark item)
    (hx : item.commentSource? = some x) : mode.Finds x [item.bare] false ⟨.eof, 0⟩ [] := by
  cases h with
  | @line body span unbroken =>
      obtain rfl := Option.some.inj hx
      have hfinds := Finds.of_comment (hmode.scan_lineComment unbroken) rfl rfl ?_
      · have hbody : (body.takeWhile fun c => !isBreak c) = body :=
          (List.takeWhile_prefix _).eq_of_length (run_eq_length_iff.mpr unbroken)
        simpa [Lexeme.cut, Token.remark, Grammar.commentItem, Item.bare, lineCommentSource, hbody]
          using hfinds
      · simp only [Lexeme.cut, List.take_length, Token.endsLine, lineCommentSource]
        refine Bool.and_eq_false_iff.mpr (.inr (Bool.eq_false_iff.mpr fun hbreak => ?_))
        obtain ⟨c, hc, hbreak⟩ := (Option.any_eq_true _ _).mp hbreak
        rcases List.mem_cons.mp (List.mem_of_getLast? hc) with rfl | hmem
        · exact absurd hbreak (by decide)
        · simpa [hbreak] using List.all_eq_true.mp unbroken c hmem
  | @block body span closes =>
      obtain rfl := Option.some.inj hx
      have hfinds := Finds.of_comment (hmode.scan_blockComment closes) rfl rfl rfl
      simp only [Lexeme.cut, List.take_length] at hfinds
      simpa [Token.remark, Grammar.commentItem, Item.bare, blockCommentSource, commentFence]
        using hfinds

end Mode

end DiagramText
