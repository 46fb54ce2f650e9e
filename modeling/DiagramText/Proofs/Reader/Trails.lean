import DiagramText.Proofs.Lexeme.RespellText
import DiagramText.Proofs.Reader.Calls
import DiagramText.Proofs.Reader.Crossing

/-!
# What trails a span

Behind what was read only white space and comments stand up to the reader, and
the reader has collected these comments (`Reader.Trails`).  Whether a line has
ended it remembers from them alone: that is forgotten when a token is consumed,
and a look ahead remembers it of the comments that it passes over
(`Reader.Glides`).  So no comment inside of a span ends the line behind it.  All
these looks are in modes of the line (`Reader.Drifts`), so that looking on from
the end of the span finds what the reader finds.

A program reaches up to the reader with a span if only that trails the span, and
the span does not end before the place where the program began
(`Reader.Attains`).  Where such programs follow one another, the span from the
first to the last reaches up to the reader (`Attains.cover`), and so does the
last span of a repetition (`many_attains`).
-/

namespace DiagramText

variable {source : Text} {start stop : Nat} {tokens : List Token}

/-- What is visible where tokens are strewn lies in their spans.  The induction is on the tiles. -/
theorem Strewn.covered (h : Strewn source start tokens stop) :
    Covered source (tokens.map (·.span)) start stop := by
  have hgap : ∀ {first last : Nat} {spans : List Span}, Mode.Gap .arguments source first last →
      Covered source spans first last := by
    intro first last spans hgap offset hfrom hto ⟨c, hc, hblank, _⟩
    have hskipped := hgap.skipped offset c (by omega) (by omega) hc
    exact absurd (Mode.isBlank_of_skips hskipped) (by simp [hblank])
  obtain ⟨last, htiles, hlast⟩ := h
  induction htiles with
  | nil => exact hgap hlast
  | @cons start first last _ token others gap tile _ ih =>
      have hstart : token.span.start = first := by rw [tile.span, Span.start_ofOffsets]
      have hstop : token.span.stop = last := by rw [tile.span, Span.stop_ofOffsets]
      have htoken : Covered source ((token :: others).map (·.span)) first last :=
        .of_mem List.mem_cons_self (Int.le_of_eq hstart) (Int.le_of_eq hstop.symm)
      exact ((hgap gap).append htoken).append ((ih hlast).mono (List.subset_cons_self _ _))

/-! ## What parts two offsets -/

/-- What may end a statement: a semicolon or a line break. -/
def terminators : List Text := [[';'], ['\n'], ['\r'], ['\r', '\n']]

def Token.IsTerminator (token : Token) : Prop :=
  token.kind = .terminator ∧ token.text ∈ terminators

/-- What is scanned as a terminator is a semicolon or a line break. -/
theorem mem_terminators {x rest : Text} (h : terminatorLength (x ++ rest) = x.length)
    (hx : x ≠ []) : x ∈ terminators := by
  obtain ⟨c, x, rfl⟩ := List.exists_cons_of_ne_nil hx
  by_cases hc : c = ';'
  · subst hc
    have hlength : 1 = x.length + 1 := h
    obtain rfl : x = [] := List.length_eq_zero_iff.mp (by omega)
    exact List.mem_cons_self
  · have hbreak : breakLength (c :: x ++ rest) = (c :: x).length := by
      simpa [terminatorLength, hc] using h
    simpa [terminators, lineEnds, hc] using mem_lineEnds hbreak

/-- From the one offset up to the other stand comments and terminators, with nothing but white space
around them, and one of them is a terminator or ends its line. -/
def Parted (source : Text) (stop start : Int) : Prop :=
  ∃ (first last : Nat) (tokens : List Token), stop = first ∧ start = last ∧
    Strewn source first tokens last ∧ (∀ token ∈ tokens, token.IsComment ∨ token.IsTerminator) ∧
    ∃ token ∈ tokens, token.IsTerminator ∨ token.endsLine = true

/-- More comments and terminators may follow. -/
theorem Parted.append {place : Int} (h : Parted source place start)
    (hmore : Strewn source start tokens stop)
    (htokens : ∀ token ∈ tokens, token.IsComment ∨ token.IsTerminator) :
    Parted source place stop := by
  obtain ⟨first, last, before, hfirst, hlast, hbefore, hall, token, htoken, hends⟩ := h
  obtain rfl : start = last := by omega
  refine ⟨first, stop, before ++ tokens, hfirst, rfl, hbefore.append hmore, ?_, token, ?_, hends⟩
  · exact List.forall_mem_append.mpr ⟨hall, htokens⟩
  · exact List.mem_append_left _ htoken

namespace Reader

variable {r r' r'' : Reader} {mode : Mode} {token : Token} {others : List Token}
  {span first last : Span}

/-- A token that is seen as a terminator is a semicolon or a line break. -/
theorem Shows.isTerminator (h : r.Shows .declaration token) (hr : r.Sound)
    (hkind : token.kind = .terminator) : token.IsTerminator := by
  have hscan := (h.scan hr).1
  rw [hkind] at hscan
  obtain ⟨hlength, hpos⟩ := Mode.scan_terminator.mp hscan
  rw [h.text_eq hr] at hlength
  exact ⟨hkind, mem_terminators hlength (List.ne_nil_of_length_pos (Nat.pos_of_ne_zero hpos))⟩

/-- The end is seen at the end of the source. -/
theorem Shows.tile_eof (h : r.Shows mode token) (hr : r.Sound) (hplaced : r.Placed source)
    (hkind : token.kind = .eof) :
    r.front.position.offset = source.length ∧ token.span.stop = source.length := by
  obtain ⟨hend, htoken⟩ := Cursor.On.tile_eof hplaced (h.token_front hr) hkind
  refine ⟨hend, ?_⟩
  rw [htoken, Span.stop_ofOffsets]

/-! ## What trails a span -/

/-- A reader that looks past comments moves on. -/
theorem Glides.moves (h : Glides source r others r') : Moves source r r' := by
  refine ⟨h.sound, h.placed, h.place_le, ?_⟩
  rw [h.comments]
  exact List.subset_append_left _ _

/-- From the one reader a look in a mode of the line came to the other, past comments only. -/
structure Drifts (source : Text) (r r' : Reader) : Prop where
  glides : ∃ tokens, Glides source r tokens r'
  passes : ∀ s, Mode.Passes s r.text → Mode.Passes s r'.text

namespace Drifts

theorem refl (hr : r.Sound) (hplaced : r.Placed source) : Drifts source r r :=
  ⟨⟨[], .refl hr hplaced⟩, fun _ h => h⟩

/-- A reader that looks past comments in modes of the line moves on. -/
theorem moves (h : Drifts source r r') : Moves source r r' := by
  obtain ⟨tokens, hglides⟩ := h.glides
  exact hglides.moves

end Drifts

/-- Only white space and collected comments trail the span up to the reader, which modes of the line
passed.  Where the reader remembers that a line has ended, one of them ended it, or the source is at
its end. -/
def Trails (source : Text) (span : Span) (r : Reader) : Prop :=
  ∃ (stop : Nat) (tokens : List Token), span.stop = stop ∧
    Strewn source stop tokens r.front.position.offset ∧ tokens ⊆ r.comments ∧
    (r.lineBreak = true →
      tokens.any (·.endsLine) = true ∨ source.length ≤ r.front.position.offset) ∧
    Mode.Passes (source.drop stop) r.text

namespace Trails

/-- The span ends where the reader is, or before. -/
theorem stop_le (h : Trails source span r) : span.stop ≤ r.place := by
  obtain ⟨stop, tokens, hstop, hstrewn, _⟩ := h
  have hle := hstrewn.le
  rw [place]
  omega

/-- From the span up to the reader nothing stands but comments. -/
theorem touches (h : Trails source span r) : Touches source span r := by
  obtain ⟨stop, tokens, hstop, hstrewn, hcomments, _⟩ := h
  rw [Touches, hstop]
  exact hstrewn.covered.mono (List.map_subset _ hcomments)

/-- What a look passes over trails the span, too. -/
theorem drifts (h : Trails source span r) (hdrifts : Drifts source r r') :
    Trails source span r' := by
  obtain ⟨stop, tokens, hstop, hstrewn, hcomments, hline, hpasses⟩ := h
  obtain ⟨others, hglides⟩ := hdrifts.glides
  refine ⟨stop, tokens ++ others, hstop, hstrewn.append hglides.strewn, ?_, fun hbreak => ?_,
    hdrifts.passes _ hpasses⟩
  · rw [hglides.comments]
    exact List.append_subset.mpr ⟨List.subset_append_of_subset_left _ hcomments,
      List.subset_append_right _ _⟩
  · rw [hglides.line, Bool.or_eq_true] at hbreak
    rw [List.any_append, Bool.or_eq_true]
    rcases hbreak with hbreak | hbreak
    · exact (hline hbreak).imp .inl fun hend => Nat.le_trans hend hglides.strewn.le
    · exact .inl (.inr hbreak)

/-- A span that covers more in front is trailed by the same. -/
theorem cover (h : Trails source last r) (hle : first.stop ≤ last.stop) :
    Trails source (first.cover last) r := by
  obtain ⟨stop, tokens, hstop, htrails⟩ := h
  exact ⟨stop, tokens, (Span.stop_cover_of_le hle).trans hstop, htrails⟩

/-- A terminator parts the span from what follows. -/
theorem parted_consumed (h : Trails source span r) (hr : r.Sound) (hplaced : r.Placed source)
    (hshows : r.Shows .declaration token) (hkind : token.kind = .terminator) :
    Parted source span.stop r.consumed.place := by
  obtain ⟨stop, tokens, hstop, hstrewn, hcomments, _⟩ := h
  have hterminator := hshows.isTerminator hr hkind
  refine ⟨stop, _, tokens ++ [token], hstop, rfl, ?_, ?_, token, by simp, .inl hterminator⟩
  · exact hstrewn.append (hshows.strewn hr hplaced (by simp [hkind]))
  · exact List.forall_mem_append.mpr ⟨fun comment hcomment => .inl (hr.comments _ (hcomments hcomment)),
      List.forall_mem_singleton.mpr (.inr hterminator)⟩

/-- So does the end of a line that is remembered before the end of the source. -/
theorem parted (h : Trails source span r) (hr : r.Sound) (hplaced : r.Placed source)
    (hshows : r.Shows mode token) (hkind : token.kind ≠ .eof) (hbreak : r.lineBreak = true) :
    Parted source span.stop r.place := by
  obtain ⟨stop, tokens, hstop, hstrewn, hcomments, hline, _⟩ := h
  have htile := hshows.tile hr hplaced hkind
  have hlt := htile.lt
  have hle := htile.le
  obtain ⟨token, htoken, hends⟩ := List.any_eq_true.mp ((hline hbreak).resolve_right (by omega))
  refine ⟨stop, _, tokens, hstop, rfl, hstrewn, ?_, token, htoken, .inr hends⟩
  exact fun comment hcomment => .inl (hr.comments _ (hcomments hcomment))

end Trails

/-- The token ahead is consumed, and nothing trails it. -/
theorem Shows.trails (h : r.Shows mode token) (hr : r.Sound) (hplaced : r.Placed source) :
    Trails source token.span r.consumed := by
  have htext : r.consumed.text = source.drop r.consumed.front.position.offset := by
    rw [text_eq_front]
    exact (h.placed_consumed hr hplaced).rest
  refine ⟨_, [], (h.place_consumed hr).symm, .refl _ _, List.nil_subset _,
    (fun hbreak => by cases hbreak), ?_⟩
  rw [htext]
  exact .refl _

/-! ## Programs that reach up to the reader -/

/-- From the one reader a program came to the other, and reaches up to it with the span. -/
structure Attains (source : Text) (r : Reader) (span : Span) (r' : Reader) : Prop where
  moves : Moves source r r'
  le : r.place ≤ span.stop
  trails : Trails source span r'

/-- A program reaches up to the reader from wherever the reader has moved before it. -/
theorem Moves.attains (h : Moves source r r') (h' : Attains source r' span r'') :
    Attains source r span r'' :=
  ⟨h.trans h'.moves, Int.le_trans h.le h'.le, h'.trails⟩

namespace Attains

/-- A look behind a program leaves what the program reached up to. -/
theorem drifts (h : Attains source r span r') (hdrifts : Drifts source r' r'') :
    Attains source r span r'' :=
  ⟨h.moves.trans hdrifts.moves, h.le, h.trails.drifts hdrifts⟩

/-- A span that covers more in front reaches as far. -/
theorem cover_of_le (h : Attains source r last r') (hle : first.stop ≤ last.stop) :
    Attains source r (first.cover last) r' :=
  ⟨h.moves, by rw [Span.stop_cover_of_le hle]; exact h.le, h.trails.cover hle⟩

/-- A later span does not end before an earlier one. -/
theorem stop_le (h : Attains source r first r') (h' : Attains source r' last r'') :
    first.stop ≤ last.stop :=
  Int.le_trans h.trails.stop_le h'.le

/-- Of two programs in turn the spans together reach up to the reader. -/
theorem cover (h : Attains source r first r') (h' : Attains source r' last r'') :
    Attains source r (first.cover last) r'' :=
  (h.moves.attains h').cover_of_le (h.stop_le h')

end Attains

/-- What a step found reaches up to the reader; where it found nothing it only looked ahead. -/
def Gains {α : Type} (source : Text) (spanOf : α → Span) (r : Reader) : Option α → Reader → Prop
  | none, r' => Drifts source r r'
  | some a, r' => Attains source r (spanOf a) r'

/-- From the one reader the mode comes to the token that the other has ahead.  A mode of the line
drifts there. -/
structure Sights (source : Text) (mode : Mode) (r : Reader) (token : Token) (r' : Reader) : Prop
    extends Spots source mode r token r' where
  drifts : mode.IsLine → Drifts source r r'

/-- A token that is sighted and consumed reaches up to the reader. -/
theorem Sights.attains (h : Sights source mode r token r') :
    Attains source r token.span r'.consumed := by
  refine ⟨h.moves_consumed, ?_, h.shows.trails h.sound h.skims.placed⟩
  rw [← h.shows.place_consumed h.sound]
  exact h.moves_consumed.le

/-- A token that is looked at is sighted. -/
theorem peek_sights (hr : r.Sound) (hplaced : r.Placed source) (mode : Mode) :
    Ends (peek mode) r (Sights source mode r) fun _ _ => True := by
  have hglides := (peek_glides hr hplaced mode).mono (fun _ _ h => h.2) fun _ _ _ => trivial
  refine (((peek_spots hr hplaced mode).and hglides).and (peek_spec hr mode)).imp ?_
  rintro token r' ⟨⟨hspots, hglides⟩, hsees⟩
  obtain ⟨_, _, hfinds, _⟩ := hsees.finds
  exact ⟨hspots, fun hmode => ⟨hglides, fun s h => h.finds hmode hfinds⟩⟩

/-- What is seen on the same line is the token that is sighted. -/
theorem peekSameLine_sights (hr : r.Sound) (hplaced : r.Placed source) (mode : Mode) :
    Ends (peekSameLine mode) r
      (fun seen r' => ∃ token, Sights source mode r token r' ∧ ∀ found, seen = some found →
        found = token) fun _ _ => True := by
  unfold peekSameLine
  refine (peek_sights hr hplaced mode).bind fun token r' h => ?_
  refine ends_bind.mpr ⟨token, h, fun found hfound => ?_⟩
  split at hfound
  · cases hfound
  · exact (Option.some.inj hfound).symm

/-- A token that is consumed, be it the end of the source, reaches up to the reader. -/
theorem advance_attains (hr : r.Sound) (hplaced : r.Placed source) (mode : Mode) :
    Ends (advance mode) r (fun token r' => Attains source r token.span r') fun _ _ => True := by
  unfold advance
  refine (peek_sights hr hplaced mode).bind fun token r' h => ?_
  by_cases hkind : token.kind = .eof
  · simp only [hkind, ne_eq, not_true_eq_false, if_false, ends_pure]
    obtain ⟨hend, hstop⟩ := h.shows.tile_eof h.sound h.skims.placed hkind
    have htext : r'.text = source.drop source.length := by
      rw [List.drop_length]
      exact (h.shows.eof_iff h.sound).mp hkind
    have htrails : Trails source token.span r' :=
      ⟨source.length, [], hstop, hend ▸ .refl _ _, List.nil_subset _,
        fun _ => .inr (Nat.le_of_eq hend.symm), htext ▸ .refl _⟩
    have hplace : r'.place = source.length := by rw [place, hend]
    refine ⟨h.moves, ?_, htrails⟩
    rw [hstop, ← hplace]
    exact h.moves.le
  · simp only [ne_eq, hkind, not_false_eq_true, if_true, ends_bind, ends_modify, ends_pure]
    exact h.attains

/-- An expected mark is sighted and consumed. -/
theorem expect_sights (hr : r.Sound) (hplaced : r.Placed source) (mode : Mode) (mark : Char) :
    Ends (expect mode [mark]) r
      (fun token r' => ∃ r₁, Sights source mode r token r₁ ∧ token.isPunct mark = true ∧
        r' = r₁.consumed) fun _ _ => True := by
  unfold expect
  refine (peek_sights hr hplaced mode).bind fun token r₁ h => ?_
  refine ends_ite.mpr ⟨fun hmark => ?_, fun _ => trivial⟩
  exact h.shows.advance_spec (Token.kind_ne_eof_of_isPunct hmark) ⟨r₁, h, hmark, rfl⟩

/-- A mark that has to stand ahead is consumed before what follows. -/
theorem ends_mark_attains {α : Type} {mark : Char} {error : Token → SyntaxError}
    {k : Token → Parser α} {post : α → Reader → Prop} (hr : r.Sound) (hplaced : r.Placed source)
    (hk : ∀ token r', Attains source r token.span r' → Ends (k token) r' post fun _ _ => True) :
    Ends (peek mode >>= fun token =>
      if (!token.isPunct mark) = true then fail (error token) >>= fun (_ : PUnit) =>
        advance mode >>= fun _ => k token
      else advance mode >>= fun _ => k token) r post fun _ _ => True := by
  refine (peek_sights hr hplaced mode).bind fun token r₁ h => ?_
  refine ends_guard (fun _ => trivial) fun hmark => ?_
  have hkind := Token.kind_ne_eof_of_isPunct (by simpa using hmark)
  exact ends_bind.mpr (h.shows.advance_spec hkind (hk token _ h.attains))

/-- After a repetition the last span that was found, or else the one from before, reaches up to the
reader, and does not end before that one. -/
theorem many_attains {α : Type} {step : Parser (Option α)} (spanOf : α → Span)
    (hstep : ∀ r : Reader, r.Sound → r.Placed source →
      Ends step r (Gains source spanOf r) fun _ _ => True)
    (h : Attains source r first r') :
    Ends (many step) r' (fun found r'' =>
      first.stop ≤ ((found.getLast?.map spanOf).getD first).stop ∧
        Attains source r ((found.getLast?.map spanOf).getD first) r'') fun _ _ => True := by
  refine (many_relates (R := fun r' found r'' => ∀ first,
    Attains source r first r' → first.stop ≤ ((found.getLast?.map spanOf).getD first).stop ∧
      Attains source r ((found.getLast?.map spanOf).getD first) r'') ?_ h.moves.sound
    h.moves.placed).imp fun _ _ hlast => hlast.2 first h
  intro r₁ hr₁ hplaced
  refine (hstep r₁ hr₁ hplaced).imp fun found r₂ hfound => ?_
  cases found with
  | none =>
      have hdrifts : Drifts source r₁ r₂ := hfound
      exact ⟨hdrifts.moves, fun _ first hfirst => ⟨Int.le_refl _, hfirst.drifts hdrifts⟩, by simp⟩
  | some a =>
      have ha : Attains source r₁ (spanOf a) r₂ := hfound
      refine ⟨ha.moves, by simp, fun a' ha' others r₃ hothers first hfirst => ?_⟩
      obtain rfl := Option.some.inj ha'
      obtain ⟨hle, hlast⟩ := hothers (spanOf a) (hfirst.moves.attains ha)
      have hstop := hfirst.stop_le ha
      rw [List.getLast?_cons]
      cases hothersLast : others.getLast? with
      | none =>
          rw [hothersLast] at hle hlast
          exact ⟨Int.le_trans hstop hle, hlast⟩
      | some b =>
          rw [hothersLast] at hle hlast
          exact ⟨Int.le_trans hstop hle, hlast⟩

/-! ## Where a statement rests -/

/-- The span is parted from the reader, or the reader has what ends the block or the source ahead. -/
def Rests (source : Text) (span : Span) (r : Reader) : Prop :=
  Parted source span.stop r.place ∨
    ∃ token, r.Shows .declaration token ∧ (token.isPunct '\x7d' = true ∨ token.kind = .eof)

/-- One token only is ahead. -/
theorem Shows.unique {token' : Token} (h : r.Shows mode token) (h' : r.Shows mode token') :
    token = token' := by
  obtain ⟨origin, ho⟩ := h
  obtain ⟨origin', ho'⟩ := h'
  cases ho.symm.trans ho'
  rfl

namespace Rests

/-- Where neither a closing brace nor the end of the source is ahead the span is parted from the
reader. -/
theorem parted (h : Rests source span r) (hshows : r.Shows .declaration token)
    (hbrace : ¬ token.isPunct '\x7d' = true) (heof : token.kind ≠ .eof) :
    Parted source span.stop r.place := by
  rcases h with hparted | ⟨seen, hseen, hends⟩
  · exact hparted
  · obtain rfl := hseen.unique hshows
    exact (hends.elim hbrace heof).elim

/-- A look ahead may pass over further comments. -/
theorem peek (h : Rests source span r) (hr : r.Sound) (hplaced : r.Placed source)
    (hpeek : Reader.peek .declaration r = .ok token r') : Rests source span r' := by
  rcases h with hparted | ⟨seen, hseen, hends⟩
  · obtain ⟨_, tokens, hglides⟩ := (peek_glides hr hplaced .declaration).ok hpeek
    have hcomments : tokens ⊆ r'.comments := by
      rw [hglides.comments]
      exact List.subset_append_right _ _
    exact .inl (hparted.append hglides.strewn fun comment hcomment =>
      .inl (hglides.sound.comments _ (hcomments hcomment)))
  · cases hseen.peek_eq.symm.trans hpeek
    exact .inr ⟨_, hseen, hends⟩

/-- A further terminator may be consumed. -/
theorem consumed (h : Rests source span r) (hr : r.Sound) (hplaced : r.Placed source)
    (hshows : r.Shows .declaration token) (hkind : token.kind = .terminator) :
    Rests source span r.consumed := by
  have hbrace : ¬ token.isPunct '\x7d' = true := fun hbrace => by
    cases hkind.symm.trans (Token.kind_of_isPunctOf hbrace)
  have hparted := h.parted hshows hbrace (by simp [hkind])
  have hterminator := hshows.isTerminator hr hkind
  exact .inl (hparted.append (hshows.strewn hr hplaced (by simp [hkind]))
    (List.forall_mem_singleton.mpr (.inr hterminator)))

end Rests

end Reader

end DiagramText
