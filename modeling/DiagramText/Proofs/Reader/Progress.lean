import DiagramText.Proofs.Reader.Sight

/-!
# Readers move forward

A reader that looks ahead stays where it is or moves on (`Reader.Keeps`), and
one that consumes a token has less before it (`Reader.Passes`).  The programs
of the reader say which of the two they do, what they return, and that no
repetition in them runs out of turns; `Reader.many_spec` carries a step over to
its repetition.
-/

namespace DiagramText

/-- A mark of punctuation is a token of that kind. -/
theorem Token.kind_of_isPunctOf {token : Token} {marks : List Text}
    (h : token.isPunctOf marks = true) : token.kind = .punct := by
  simp only [Token.isPunctOf, Bool.and_eq_true, beq_iff_eq] at h
  exact h.1

/-- A mark is not the end of the source. -/
theorem Token.kind_ne_eof_of_isPunct {token : Token} {mark : Char}
    (h : token.isPunct mark = true) : token.kind ≠ .eof := by
  rw [Token.kind_of_isPunctOf h]
  decide

/-- A token that is not turned away as an index is a word of digits. -/
theorem Token.of_not_badIndex {token : Token}
    (h : ¬ (decide (token.kind ≠ .ident) || !token.text.all Char.isDigit) = true) :
    token.kind = .ident ∧ token.text.all Char.isDigit = true := by
  simpa using h

namespace Reader

/-- The same place, or a later one. -/
structure Keeps (r r' : Reader) : Prop where
  sound : r'.Sound
  le : r'.ahead ≤ r.ahead

/-- A later place. -/
structure Passes (r r' : Reader) : Prop where
  sound : r'.Sound
  lt : r'.ahead < r.ahead

variable {r r' r'' : Reader}

theorem Keeps.refl (hr : r.Sound) : r.Keeps r :=
  ⟨hr, Nat.le_refl _⟩

/-- To pass something is to keep the rest. -/
theorem Passes.keeps (h : r.Passes r') : r.Keeps r' :=
  ⟨h.sound, Nat.le_of_lt h.lt⟩

/-- What is kept twice is kept. -/
theorem Keeps.trans (h : r.Keeps r') (h' : r'.Keeps r'') : r.Keeps r'' :=
  ⟨h'.sound, Nat.le_trans h'.le h.le⟩

/-- Something is passed after a look, too. -/
theorem Keeps.passes (h : r.Keeps r') (h' : r'.Passes r'') : r.Passes r'' :=
  ⟨h'.sound, Nat.lt_of_lt_of_le h'.lt h.le⟩

/-- Something is passed before a look, too. -/
theorem Passes.trans (h : r.Passes r') (h' : r'.Keeps r'') : r.Passes r'' :=
  ⟨h'.sound, Nat.lt_of_le_of_lt h'.le h.lt⟩

/-- A look ahead keeps what there is to read. -/
theorem Sees.keeps {mode : Mode} {token : Token} (h : Sees mode r token r') : r.Keeps r' :=
  ⟨h.sound, h.ahead_le⟩

namespace Shows

variable {mode : Mode} {token : Token}

/-- The token ahead is spelled as the mode has it. -/
theorem spells (h : r.Shows mode token) (hr : r.Sound) : mode.Spells token.kind token.text := by
  refine ⟨r.text.drop token.text.length, ?_⟩
  rw [← h.text_eq hr]
  exact (h.scan hr).1

/-- Consuming a token passes it. -/
theorem passes (h : r.Shows mode token) (hr : r.Sound) (hkind : token.kind ≠ .eof) :
    r.Passes r.consumed :=
  ⟨hr.consumed, h.ahead_consumed hr hkind⟩

/-- A mark that is ahead is the next character. -/
theorem text_eq_cons {mark : Char} (h : r.Shows mode token) (hr : r.Sound)
    (hmark : token.isPunct mark = true) : r.text = mark :: r.consumed.text := by
  have htext : token.text = [mark] := by
    simpa [Token.isPunct, Token.isPunctOf] using (Bool.and_eq_true_iff.mp hmark).2
  rw [h.text_eq_append hr, htext, List.singleton_append]

end Shows

/-- What a reader sees is what the mode finds. -/
theorem Sees.of_finds {mode : Mode} {token : Token} {remarks : List Item} {ends : Bool}
    {lexeme : Lexeme} {t : Text} (h : Sees mode r token r')
    (hfinds : mode.Finds r.text remarks ends lexeme t) :
    token.kind = lexeme.kind ∧ token.text = t.take lexeme.length ∧ r'.text = t ∧
      r'.remarks = r.remarks ++ remarks ∧ r'.lineBreak = (r.lineBreak || ends) := by
  obtain ⟨_, _, hfound, hremarks, hbreak⟩ := h.finds
  obtain ⟨rfl, rfl, rfl, rfl⟩ := hfinds.unique hfound
  exact ⟨rfl, (h.shows.scan h.sound).2, rfl, hremarks, hbreak⟩

/-- At the end of the source its end is seen. -/
theorem Sees.of_nil {mode : Mode} {token : Token} (h : Sees mode r token r') (hr : r.text = []) :
    token.kind = .eof ∧ r'.text = [] := by
  obtain ⟨hkind, _, htext, _⟩ := h.of_finds (hr ▸ Mode.finds_nil)
  exact ⟨hkind, htext.trans hr⟩

/-- Where the mode finds something the reader sees it. -/
theorem peek_of_finds {mode : Mode} {remarks : List Item} {ends : Bool} {lexeme : Lexeme}
    {t : Text} (hr : r.Sound) (hfinds : mode.Finds r.text remarks ends lexeme t) :
    ∃ token r', peek mode r = .ok token r' ∧ Sees mode r token r' := by
  cases hpeek : peek mode r with
  | ok token r' => exact ⟨token, r', rfl, (peek_spec hr mode).ok hpeek⟩
  | error fault r' =>
      exact absurd ⟨remarks, ends, lexeme, t, hfinds⟩ ((peek_spec hr mode).error hpeek).2

/-- Looking ahead stays or moves on to the token it shows. -/
theorem peek_keeps (hr : r.Sound) (mode : Mode) :
    Ends (peek mode) r (fun token r' => r.Keeps r' ∧ r'.Shows mode token) Local := by
  refine (peek_spec hr mode).mono ?_ fun _ _ h => h.1
  intro token r' h
  exact ⟨h.keeps, h.shows⟩

/-- What is seen on the same line is the token ahead, unless a comment ended the line. -/
theorem peekSameLine_spec (hr : r.Sound) (mode : Mode) :
    Ends (peekSameLine mode) r
      (fun seen r' => ∃ token, Sees mode r token r' ∧
        seen = if r'.lineBreak then none else some token) Local := by
  unfold peekSameLine
  refine ends_bind.mpr ((peek_spec hr mode).mono ?_ fun _ _ h => h.1)
  intro token r' hsees
  exact ends_bind.mpr ⟨token, hsees, rfl⟩

/-- A look on the same line keeps what there is to read. -/
theorem peekSameLine_keeps (hr : r.Sound) (mode : Mode) :
    Ends (peekSameLine mode) r
      (fun seen r' => r.Keeps r' ∧ ∀ token, seen = some token → r'.Shows mode token)
      Local := by
  refine (peekSameLine_spec hr mode).imp ?_
  rintro seen r' ⟨token, hsees, rfl⟩
  refine ⟨hsees.keeps, ?_⟩
  intro found hfound
  split at hfound
  · cases hfound
  · exact Option.some.inj hfound ▸ hsees.shows

/-- Consuming a token, which may be the end of the source. -/
theorem advance_keeps (hr : r.Sound) (mode : Mode) :
    Ends (advance mode) r
      (fun token r' => r.Keeps r' ∧ mode.Spells token.kind token.text ∧
        (token.kind ≠ .eof → r.Passes r')) Local := by
  unfold advance
  refine (peek_keeps hr mode).bind ?_
  rintro token r' ⟨hkeeps, hshows⟩
  have hspells := hshows.spells hkeeps.sound
  by_cases hkind : token.kind = .eof
  · simp only [hkind, ne_eq, not_true_eq_false, if_false, ends_pure]
    exact ⟨hkeeps, hkind ▸ hspells, fun h => h.elim⟩
  · have hpasses := hkeeps.passes (hshows.passes hkeeps.sound hkind)
    simp only [ne_eq, hkind, not_false_eq_true, if_true, ends_bind, ends_modify, ends_pure]
    exact ⟨hpasses.keeps, hspells, fun _ => hpasses⟩

/-- A token ahead that is not the end of the source is consumed. -/
theorem Shows.advance_spec {mode : Mode} {token : Token} {post : Token → Reader → Prop}
    {fail : Fault → Reader → Prop} (h : r.Shows mode token) (hkind : token.kind ≠ .eof)
    (hpost : post token r.consumed) : Ends (advance mode) r post fail :=
  (ends_of_ok (h.advance_eq hkind)).mpr hpost

/-- An expected mark is consumed. -/
theorem expect_passes (hr : r.Sound) (mode : Mode) (mark : Text) :
    Ends (expect mode mark) r
      (fun token r' => r.Passes r' ∧ token.isPunctOf [mark] = true) Local := by
  unfold expect
  refine (peek_keeps hr mode).bind ?_
  rintro token r' ⟨hkeeps, hshows⟩
  rw [ends_ite]
  constructor
  · intro hmark
    have hkind : token.kind ≠ .eof := by
      rw [Token.kind_of_isPunctOf hmark]
      decide
    exact hshows.advance_spec hkind
      ⟨hkeeps.passes (hshows.passes hkeeps.sound hkind), hmark⟩
  · intro _
    simp [Local]

/-- A mark that has to stand ahead is consumed before what follows. -/
theorem ends_mark {α : Type} {mode : Mode} {mark : Char} {error : Token → SyntaxError}
    {k : Token → Parser α} {post : α → Reader → Prop} (hr : r.Sound)
    (herror : ∀ token r', Local (.malformed (error token)) r')
    (hk : ∀ token r', r.Passes r' → Ends (k token) r' post Local) :
    Ends (peek mode >>= fun token =>
      if (!token.isPunct mark) = true then fail (error token) >>= fun (_ : PUnit) =>
        advance mode >>= fun _ => k token
      else advance mode >>= fun _ => k token) r post Local := by
  refine (peek_keeps hr mode).bind ?_
  rintro token r' ⟨hkeeps, hshows⟩
  refine ends_guard (fun _ => herror token r') fun hmark => ?_
  have hkind := Token.kind_ne_eof_of_isPunct (by simpa using hmark)
  refine ends_bind.mpr (hshows.advance_spec hkind ?_)
  exact hk token _ (hkeeps.passes (hshows.passes hkeeps.sound hkind))

/-- Repeating a step that consumes something whenever it gives something.  The induction is on the
turns: each leaves less ahead than the one before. -/
theorem manyUpTo_spec {α : Type} {step : Parser (Option α)} {P : α → Prop}
    (hstep : ∀ r : Reader, r.Sound →
      Ends step r (fun found r' => r.Keeps r' ∧ ∀ a, found = some a → r.Passes r' ∧ P a) Local)
    (limit : Nat) (r : Reader) (hr : r.Sound) (hlimit : r.ahead < limit) :
    Ends (manyUpTo step limit) r (fun found r' => r.Keeps r' ∧ ∀ a ∈ found, P a) Local := by
  induction limit generalizing r with
  | zero => omega
  | succ limit ih =>
      unfold manyUpTo
      refine (hstep r hr).bind ?_
      rintro found r' ⟨hkeeps, hfound⟩
      cases found with
      | none => exact ⟨hkeeps, by simp⟩
      | some a =>
          obtain ⟨hpasses, ha⟩ := hfound a rfl
          refine (ih r' hkeeps.sound (by have := hpasses.lt; omega)).bind ?_
          rintro others r'' ⟨hlater, hothers⟩
          exact ⟨hkeeps.trans hlater, by simpa [ha] using hothers⟩

/-- A repetition takes no more turns than there are characters ahead, and one more. -/
theorem many_spec {α : Type} {step : Parser (Option α)} {P : α → Prop}
    (hstep : ∀ r : Reader, r.Sound →
      Ends step r (fun found r' => r.Keeps r' ∧ ∀ a, found = some a → r.Passes r' ∧ P a) Local)
    (hr : r.Sound) :
    Ends (many step) r (fun found r' => r.Keeps r' ∧ ∀ a ∈ found, P a) Local :=
  manyUpTo_spec hstep _ r hr (Nat.lt_succ_self _)

end Reader

end DiagramText
