import DiagramText.Proofs.Lexeme.Fault
import DiagramText.Proofs.Lexeme.Front

/-!
# The ranks of lexemes

The recognisers of a mode are asked in order, and the first that finds anything
decides.  The same choice can be made without an order: all of them are asked,
and of what they find the lexeme of the highest rank is taken, or the longest of
those (`Lexeme.pick`).

The two agree (`Recogniser.pick_eq_firstOf`) because of what the order is: where a
recogniser finds something, a later one finds a lexeme of a lower rank or
nothing (`Recogniser.Overrides`, `Mode.recognisers_overrides`).
-/

namespace DiagramText

/-- Which kind is taken where lexemes of several kinds are found: that of the highest rank. -/
def TokenKind.rank : TokenKind → Nat
  | .comment | .blockComment => 11
  | .terminator => 10
  | .connection => 9
  | .codeBlock => 7
  | .importRef => 6
  | .punct => 5
  | .quoted => 4
  | .number | .boolean => 2
  | .text => 1
  | .ident | .eof => 0

namespace Lexeme

/-- A lexeme is taken before another one if it is of a higher rank, or of the same and longer. -/
def Beats (lexeme other : Lexeme) : Prop :=
  other.kind.rank < lexeme.kind.rank ∨
    (other.kind.rank = lexeme.kind.rank ∧ other.length < lexeme.length)

instance (lexeme other : Lexeme) : Decidable (lexeme.Beats other) :=
  inferInstanceAs (Decidable (_ ∨ _))

/-- What is taken of two, the first where the second does not beat it. -/
def better : (best found : Option Lexeme) → Option Lexeme
  | some best, some found => if found.Beats best then some found else some best
  | some best, none => some best
  | none, found => found

/-- What was found is this lexeme or one of a lower rank, or nothing. -/
def Tops (lexeme : Lexeme) (found : Option Lexeme) : Prop :=
  ∀ other, found = some other → other = lexeme ∨ other.kind.rank < lexeme.kind.rank

variable {lexeme : Lexeme} {best found : Option Lexeme}

/-- A lexeme that tops two others tops what is taken of them. -/
theorem Tops.better (hbest : lexeme.Tops best) (hfound : lexeme.Tops found) :
    lexeme.Tops (better best found) := by
  intro other hother
  unfold Lexeme.better at hother
  split at hother
  · split at hother
    · exact hfound other hother
    · exact hbest other hother
  · exact hbest other hother
  · exact hfound other hother

/-- The lexeme itself is taken from whichever side it comes. -/
theorem Tops.better_eq (hbest : lexeme.Tops best) (hfound : lexeme.Tops found)
    (h : best = some lexeme ∨ found = some lexeme) : Lexeme.better best found = some lexeme := by
  unfold Lexeme.better Beats
  grind [Tops]

/-- What is taken of all that was found, when `best` was taken so far.  A fault ends the search. -/
def pick (best : Option Lexeme) :
    List (Except LexFault (Option Lexeme)) → Except LexFault (Option Lexeme)
  | [] => .ok best
  | .error fault :: _ => .error fault
  | .ok found :: others => pick (better best found) others

variable {results : List (Except LexFault (Option Lexeme))}

/-- A lexeme that tops all others is taken, whenever it is found. -/
theorem pick_eq_ok (hbest : lexeme.Tops best)
    (hresults : ∀ result ∈ results, ∃ found, result = .ok found ∧ lexeme.Tops found)
    (hmem : best = some lexeme ∨ .ok (some lexeme) ∈ results) :
    pick best results = .ok (some lexeme) := by
  induction results generalizing best with
  | nil => rw [hmem.resolve_right (by simp), pick]
  | cons result results ih =>
      obtain ⟨⟨found, rfl, hfound⟩, hothers⟩ := List.forall_mem_cons.mp hresults
      rw [pick]
      apply ih (hbest.better hfound) hothers
      by_cases hhere : best = some lexeme ∨ found = some lexeme
      · exact .inl (hbest.better_eq hfound hhere)
      · right
        grind

/-- Where nothing but one fault ends the search, it ends with this fault. -/
theorem pick_eq_error {fault : LexFault}
    (hresults : ∀ result ∈ results, result = .error fault ∨ ∃ found, result = .ok found)
    (hmem : .error fault ∈ results) : pick best results = .error fault := by
  induction results generalizing best with
  | nil => cases hmem
  | cons result results ih =>
      obtain ⟨hresult, hothers⟩ := List.forall_mem_cons.mp hresults
      rcases hresult with rfl | ⟨found, rfl⟩
      · rfl
      · exact ih hothers ((List.mem_cons.mp hmem).resolve_left (by simp))

/-- Of nothing that was found nothing is taken. -/
theorem pick_eq_none (hresults : ∀ result ∈ results, result = .ok none) :
    pick none results = .ok none := by
  induction results with
  | nil => rfl
  | cons result results ih =>
      obtain ⟨rfl, hothers⟩ := List.forall_mem_cons.mp hresults
      exact ih hothers

end Lexeme

namespace Recogniser

/-- Where the first recogniser finds something the second comes to no fault, and what it finds is
of a lower rank. -/
def Overrides (first second : Recogniser) : Prop :=
  ∀ s, first s ≠ .ok none → ∃ found, second s = .ok found ∧
    ∀ lexeme other, first s = .ok (some lexeme) → found = some other →
      other.kind.rank < lexeme.kind.rank

/-- The recogniser finds nothing but where one of these characters stands. -/
structure Fronts (marks : List Char) (recogniser : Recogniser) : Prop where
  nil : recogniser [] = .ok none
  cons : ∀ c rest, c ∉ marks → recogniser (c :: rest) = .ok none

/-- Recognisers that find something at different characters do not meet. -/
theorem Overrides.of_fronts {first second : Recogniser} {marks : List Char}
    (hsecond : Fronts marks second) (hfirst : ∀ c ∈ marks, ∀ rest, first (c :: rest) = .ok none) :
    Overrides first second := by
  intro s hs
  have hnone : second s = .ok none := by
    cases s with
    | nil => exact hsecond.nil
    | cons c rest => exact hsecond.cons c rest fun hc => hs (hfirst c hc rest)
  exact ⟨none, hnone, fun _ _ _ h => nomatch h⟩

/-- Recognisers whose lexemes begin with different marks never find anything together. -/
theorem Fronts.overrides {first second : Recogniser} {marks marks' : List Char}
    (hfirst : Fronts marks first) (hsecond : Fronts marks' second)
    (hapart : marks'.all (!marks.contains ·) = true) : Overrides first second := by
  apply Overrides.of_fronts hsecond
  intro c hc rest
  have hother := List.all_eq_true.mp hapart c hc
  exact hfirst.cons c rest (by simpa using hother)

/-- A recogniser that comes to no fault and finds lexemes of a lower rank does not count. -/
theorem Overrides.of_rank {first : Recogniser} {kind kind' : TokenKind} {length : Text → Nat}
    (hfirst : OfKind kind first) (hrank : kind'.rank < kind.rank) :
    Overrides first (ofLength kind' length) := by
  intro s _
  refine ⟨_, rfl, ?_⟩
  intro lexeme other hlexeme hother
  have hkind : ofLength kind' length s = .ok (some other) := congrArg Except.ok hother
  rw [hfirst s lexeme hlexeme, ofKind_ofLength s other hkind]
  exact hrank

theorem fronts_terminator : Fronts [';', '\n', '\r'] (ofLength .terminator terminatorLength) where
  nil := rfl
  cons c rest hc := by
    simp only [List.mem_cons, List.not_mem_nil, or_false, not_or] at hc
    simp [terminatorLength, breakLength, hc]

theorem fronts_lineComment : Fronts ['#'] lineComment where
  nil := rfl
  cons c rest hc := by
    rw [List.mem_singleton] at hc
    simp [lineComment, commentLength, hc]

/-- A block comment begins with a quote. -/
theorem fronts_blockComment : Fronts ['\x22'] blockComment where
  nil := rfl
  cons c rest hc := by
    rw [List.mem_singleton] at hc
    simp [blockComment, commentFence, List.isPrefixOf, Ne.symm hc]

/-- A quoted text begins with a quote. -/
theorem fronts_quotedText (marks : List QuoteMark) : Fronts ['\x22', '\x27'] (quotedText marks) where
  nil := rfl
  cons c rest hc := by
    have hmarks : marks.any (·.char == c) = false := by
      rw [List.any_eq_false]
      intro mark _
      cases mark <;> grind [QuoteMark.char]
    simp [quotedText, hmarks]

/-- An import begins with its mark or with a dot. -/
theorem fronts_import : Fronts ['@', '.'] (ofLength .importRef importLength) where
  nil := rfl
  cons c rest hc := by
    simp only [List.mem_cons, List.not_mem_nil, or_false, not_or] at hc
    simp [importLength, hc]

theorem fronts_connection : Fronts ['<', '-'] (ofLength .connection connectionLength) where
  nil := rfl
  cons c rest hc := by
    simp only [List.mem_cons, List.not_mem_nil, or_false, not_or] at hc
    simp [connectionLength, hc]

theorem fronts_punctuation (marks : List Char) : Fronts marks (punctuation marks) where
  nil := rfl
  cons c rest hc := by simp [punctuation, hc]

/-- A code block begins with a bar. -/
theorem fronts_codeBlock : Fronts ['|'] codeBlock where
  nil := rfl
  cons c rest hc := codeBlock_none (by simpa using hc) rest

theorem fronts_boolean :
    Fronts ['t', 'f'] (ofLength .boolean (literalLength booleanLength)) where
  nil := rfl
  cons c rest hc := by
    simp only [List.mem_cons, List.not_mem_nil, or_false, not_or] at hc
    simp [literalLength, booleanLength, List.isPrefixOf, Ne.symm hc.1, Ne.symm hc.2]

/-- Where a block comment stands or should be closed, the first two of its marks are a quoted text
of a lower rank. -/
theorem blockComment_overrides (marks : List QuoteMark) (hmarks : .double ∈ marks) :
    Overrides blockComment (quotedText marks) := by
  intro s hs
  have hfence : commentFence.isPrefixOf s = true := by
    rwa [ne_eq, blockComment_eq_none, Bool.not_eq_false] at hs
  obtain ⟨rest, rfl⟩ := List.isPrefixOf_iff_prefix.mp hfence
  have hquoted : quotedText marks (commentFence ++ rest) = .ok (some ⟨.quoted, 2⟩) :=
    quotedText_eq_some.mpr ⟨.double, hmarks, _, 0, rfl, rfl, rfl⟩
  refine ⟨_, hquoted, ?_⟩
  intro lexeme other hlexeme hother
  rw [ofKind_blockComment _ lexeme hlexeme, ← Option.some.inj hother]
  decide

/-- Where the first recognisers find nothing and one finds something, all that come after it are
overridden by it. -/
theorem exists_of_firstOf_ne {recognisers : List Recogniser} {s : Text}
    (h : firstOf recognisers s ≠ .ok none) :
    ∃ before recogniser after, recognisers = before ++ recogniser :: after ∧
      (∀ earlier ∈ before, earlier s = .ok none) ∧ recogniser s = firstOf recognisers s := by
  induction recognisers with
  | nil => exact absurd rfl h
  | cons recogniser others ih =>
      by_cases hnone : recogniser s = .ok none
      · have hothers : firstOf (recogniser :: others) s = firstOf others s := by
          simp only [firstOf, hnone]
        rw [hothers] at h ⊢
        obtain ⟨before, later, after, rfl, hbefore, hlater⟩ := ih h
        exact ⟨recogniser :: before, later, after, rfl,
          List.forall_mem_cons.mpr ⟨hnone, hbefore⟩, hlater⟩
      · refine ⟨[], recogniser, others, rfl, by simp, ?_⟩
        simp only [firstOf]

/-- Where nothing is found none of the recognisers finds anything. -/
theorem eq_none_of_firstOf {recognisers : List Recogniser} {s : Text}
    (h : firstOf recognisers s = .ok none) : ∀ recogniser ∈ recognisers, recogniser s = .ok none := by
  induction recognisers with
  | nil => simp
  | cons recogniser others ih =>
      rw [List.forall_mem_cons]
      by_cases hnone : recogniser s = .ok none
      · simp only [firstOf, hnone] at h
        exact ⟨hnone, ih h⟩
      · simp only [firstOf] at h
        exact absurd h hnone

/-- Of all that is found the first is taken, in whatever order it was looked for. -/
theorem pick_eq_firstOf {recognisers : List Recogniser} {s : Text}
    {results : List (Except LexFault (Option Lexeme))}
    (hoverrides : recognisers.Pairwise Overrides)
    (hresults : ∀ result, result ∈ results ↔ ∃ recogniser ∈ recognisers, recogniser s = result) :
    Lexeme.pick none results = firstOf recognisers s := by
  by_cases hnone : firstOf recognisers s = .ok none
  · rw [hnone]
    apply Lexeme.pick_eq_none
    intro result hresult
    obtain ⟨recogniser, hmem, rfl⟩ := (hresults result).mp hresult
    exact eq_none_of_firstOf hnone recogniser hmem
  obtain ⟨before, recogniser, after, hsplit, hbefore, hfirst⟩ := exists_of_firstOf_ne hnone
  have hfound : firstOf recognisers s ∈ results :=
    (hresults _).mpr ⟨recogniser, by simp [hsplit], hfirst⟩
  have hafter : ∀ later ∈ after, Overrides recogniser later := by
    rw [hsplit, List.pairwise_append, List.pairwise_cons] at hoverrides
    exact hoverrides.2.1.1
  -- What came before found nothing, and what comes after is overridden.
  have hresult : ∀ result ∈ results, result = firstOf recognisers s ∨ ∃ found, result = .ok found ∧
      ∀ lexeme other, firstOf recognisers s = .ok (some lexeme) → found = some other →
        other.kind.rank < lexeme.kind.rank := by
    intro result hresult
    obtain ⟨other, hmem, rfl⟩ := (hresults result).mp hresult
    rw [hsplit, List.mem_append, List.mem_cons] at hmem
    rcases hmem with hmem | rfl | hmem
    · exact .inr ⟨none, hbefore other hmem, fun _ _ _ h => nomatch h⟩
    · exact .inl hfirst
    · rw [← hfirst] at hnone ⊢
      exact .inr (hafter other hmem s hnone)
  cases hdecides : firstOf recognisers s with
  | error fault =>
      rw [hdecides] at hfound hresult
      apply Lexeme.pick_eq_error _ hfound
      intro result hmem
      grind
  | ok found =>
      cases found with
      | none => exact absurd hdecides hnone
      | some lexeme =>
          rw [hdecides] at hfound hresult
          have hstart : lexeme.Tops none := fun _ h => nomatch h
          apply Lexeme.pick_eq_ok hstart _ (.inr hfound)
          intro result hmem
          rcases hresult result hmem with rfl | ⟨found, rfl, hlower⟩
          · exact ⟨_, rfl, fun other h => .inl (Option.some.inj h).symm⟩
          · exact ⟨found, rfl, fun other h => .inr (hlower lexeme other rfl h)⟩

end Recogniser

open Recogniser

namespace Mode

/-- What all modes of the line share is in order of rank. -/
theorem shared_overrides {marks : List QuoteMark} (hmarks : .double ∈ marks) :
    (shared marks).Pairwise Overrides := by
  have hquoted := fronts_quotedText marks
  have hcomment : OfKind .comment lineComment := ofKind_ofLength
  simp only [shared, List.pairwise_cons, List.forall_mem_cons, List.not_mem_nil, false_implies,
    implies_true, and_true, List.Pairwise.nil]
  exact ⟨⟨fronts_terminator.overrides fronts_lineComment (by decide),
      fronts_terminator.overrides fronts_blockComment (by decide),
      fronts_terminator.overrides hquoted (by decide), .of_rank ofKind_ofLength (by decide)⟩,
    ⟨fronts_lineComment.overrides fronts_blockComment (by decide),
      fronts_lineComment.overrides hquoted (by decide), .of_rank hcomment (by decide)⟩,
    ⟨blockComment_overrides marks hmarks, .of_rank ofKind_blockComment (by decide)⟩,
    hquoted.overrides fronts_import (by decide)⟩

/-- What stands at other characters does not meet what statements and labels share. -/
theorem shared_overrides_of_fronts {marks : List QuoteMark} {fronts : List Char}
    {recogniser : Recogniser} (hfronts : Fronts fronts recogniser)
    (hapart : fronts.all (!sharedFronts.contains ·) = true) :
    ∀ first ∈ shared marks, Overrides first recogniser := by
  intro first hfirst
  apply Overrides.of_fronts hfronts
  intro c hc rest
  have hother := List.all_eq_true.mp hapart c hc
  exact shared_eq_none (by simpa using hother) marks rest first hfirst

/-- What statements and labels share is of a higher rank than names and labels. -/
theorem shared_overrides_of_rank {marks : List QuoteMark} {kind : TokenKind}
    {length : Text → Nat} (hrank : kind.rank < 4) :
    ∀ first ∈ shared marks, Overrides first (ofLength kind length) := by
  have hkinds : ∀ first ∈ shared marks, ∃ kind' : TokenKind, 4 ≤ kind'.rank ∧ OfKind kind' first := by
    simp only [shared, List.forall_mem_cons, List.not_mem_nil, false_implies, implies_true, and_true]
    exact ⟨⟨.terminator, by decide, ofKind_ofLength⟩, ⟨.comment, by decide, ofKind_ofLength⟩,
      ⟨.blockComment, by decide, ofKind_blockComment⟩, ⟨.quoted, by decide, ofKind_quotedText⟩,
      ⟨.importRef, by decide, ofKind_ofLength⟩⟩
  intro first hfirst
  obtain ⟨kind', hkind', hof⟩ := hkinds first hfirst
  exact .of_rank hof (Nat.lt_of_lt_of_le hrank hkind')

/-- A point is a mark of statements, and an import may begin with one, which is of a higher rank. -/
theorem shared_overrides_marks : ∀ first ∈ shared [.double, .single],
    Overrides first (punctuation ['\x7b', '\x7d', '(', ')', ':', '.', '[', ']']) := by
  have hquoted := (fronts_quotedText [.double, .single]).overrides
    (fronts_punctuation ['\x7b', '\x7d', '(', ')', ':', '.', '[', ']']) (by decide)
  simp only [shared, List.forall_mem_cons, List.not_mem_nil, false_implies, implies_true, and_true]
  exact ⟨.of_rank ofKind_ofLength (by decide), .of_rank ofKind_ofLength (by decide),
    .of_rank ofKind_blockComment (by decide), hquoted, .of_rank ofKind_ofLength (by decide)⟩

/-- The recognisers of declarations are in order of rank. -/
theorem declaration_overrides : Mode.declaration.recognisers.Pairwise Overrides := by
  have hpunct {marks : List Char} : OfKind .punct (punctuation marks) := ofKind_ofLength
  apply List.pairwise_append.mpr
  refine ⟨shared_overrides (by decide), ?_, ?_⟩
  · simp only [List.pairwise_cons, List.forall_mem_cons, List.not_mem_nil, false_implies,
      implies_true, and_true, List.Pairwise.nil]
    exact ⟨⟨.of_rank ofKind_ofLength (by decide), .of_rank ofKind_ofLength (by decide)⟩,
      .of_rank hpunct (by decide)⟩
  · intro first hfirst
    simp only [List.forall_mem_cons, List.not_mem_nil, false_implies, implies_true, and_true]
    exact ⟨shared_overrides_of_fronts fronts_connection (by decide) first hfirst,
      shared_overrides_marks first hfirst, shared_overrides_of_rank (by decide) first hfirst⟩

/-- Numbers and booleans are of the same rank, and no numeral begins with a letter. -/
theorem number_overrides : Overrides (.ofLength .number (literalLength numeralLength))
    (.ofLength .boolean (literalLength booleanLength)) := by
  apply Overrides.of_fronts fronts_boolean
  intro c hc rest
  rw [ofLength_eq_none]
  simp only [List.mem_cons, List.not_mem_nil, or_false] at hc
  rcases hc with rfl | rfl <;> rfl

/-- The recognisers of labels are in order of rank. -/
theorem label_overrides : Mode.label.recognisers.Pairwise Overrides := by
  have hpunct {marks : List Char} : OfKind .punct (punctuation marks) := ofKind_ofLength
  have hcode : Overrides (punctuation ['\x7b', '\x7d', '[']) codeBlock :=
    (fronts_punctuation _).overrides fronts_codeBlock (by decide)
  apply List.pairwise_append.mpr
  refine ⟨shared_overrides (by decide), ?_, ?_⟩
  · simp only [List.pairwise_cons, List.forall_mem_cons, List.not_mem_nil, false_implies,
      implies_true, and_true, List.Pairwise.nil]
    exact ⟨⟨hcode, .of_rank hpunct (by decide), .of_rank hpunct (by decide),
        .of_rank hpunct (by decide)⟩,
      ⟨.of_rank ofKind_codeBlock (by decide), .of_rank ofKind_codeBlock (by decide),
        .of_rank ofKind_codeBlock (by decide)⟩,
      ⟨number_overrides, .of_rank ofKind_ofLength (by decide)⟩,
      .of_rank ofKind_ofLength (by decide)⟩
  · intro first hfirst
    simp only [List.forall_mem_cons, List.not_mem_nil, false_implies, implies_true, and_true]
    exact ⟨shared_overrides_of_fronts (fronts_punctuation _) (by decide) first hfirst,
      shared_overrides_of_fronts fronts_codeBlock (by decide) first hfirst,
      shared_overrides_of_rank (by decide) first hfirst,
      shared_overrides_of_rank (by decide) first hfirst,
      shared_overrides_of_rank (by decide) first hfirst⟩

/-- In a list all that is found is of another rank. -/
theorem list_overrides (marks : List Char) (p : Char → Bool) :
    [lineComment, punctuation marks, word p].Pairwise Overrides := by
  have hcomment : OfKind .comment lineComment := ofKind_ofLength
  have hpunct : OfKind .punct (punctuation marks) := ofKind_ofLength
  simp only [List.pairwise_cons, List.forall_mem_cons, List.not_mem_nil, false_implies, implies_true,
    and_true, List.Pairwise.nil]
  exact ⟨⟨.of_rank hcomment (by decide), .of_rank hcomment (by decide)⟩,
    .of_rank hpunct (by decide)⟩

/-- In every mode a recogniser overrides those that come after it. -/
theorem recognisers_overrides (mode : Mode) : mode.recognisers.Pairwise Overrides := by
  cases mode with
  | declaration => exact declaration_overrides
  | label => exact label_overrides
  | arguments => exact list_overrides _ _
  | constraints => exact list_overrides _ _

end Mode

end DiagramText
