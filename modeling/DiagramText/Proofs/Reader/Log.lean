import DiagramText.Proofs.Reader.Looking
import DiagramText.Proofs.Reader.Place
import DiagramText.Proofs.Text.Slice

/-!
# The comments a reader collects

Tokens are cut from the source: the text of a token is the part of the source
in its span, and the span has the line and column of its start
(`Token.CutFrom`).  The comments that a reader has collected are such tokens,
one after another up to where the reader is (`Reader.Logs`), and every program
that looks ahead and consumes keeps them so, also where it fails
(`Looks.logs`).
-/

namespace DiagramText

/-- The text of the token is what stands in the source at its span. -/
def Token.CutFrom (source : Text) (token : Token) : Prop :=
  ∃ start : Nat, token.text <+: source.drop start ∧
    token.span = .ofOffsets source start (start + token.text.length)

namespace Token.CutFrom

variable {source : Text} {token : Token}

/-- A token that is cut from the source lies within it. -/
theorem within (h : token.CutFrom source) (hstart : token.span.start ≤ source.length) :
    token.span.Within source := by
  obtain ⟨start, htext, hspan⟩ := h
  have hlength := htext.length_le
  rw [List.length_drop] at hlength
  rw [hspan, Span.start_ofOffsets] at hstart
  exact ⟨start, start + token.text.length, by omega, by omega, hspan⟩

/-- The source reads at the span of a token as the token does. -/
theorem text_eq (h : token.CutFrom source) : token.span.text source = token.text := by
  obtain ⟨start, htext, hspan⟩ := h
  rw [hspan]
  exact Span.text_ofOffsets htext

/-- The span of a token is as long as its text. -/
theorem stop_eq (h : token.CutFrom source) :
    token.span.stop = token.span.start + token.text.length := by
  obtain ⟨start, _, hspan⟩ := h
  rw [hspan, Span.start_ofOffsets, Span.stop_ofOffsets]

end Token.CutFrom

/-- A token that is read at a cursor on the source is cut from it. -/
theorem Cursor.On.cutFrom {source : Text} {cursor : Cursor} {mode : Mode} {token : Token}
    (h : cursor.On source) (htoken : cursor.token mode = .ok token) :
    token.CutFrom source ∧ token.span.start = cursor.position.offset ∧
      token.span.stop = (cursor.advance token.text.length).position.offset := by
  obtain ⟨hstart, hstop, _⟩ := Reader.span_of_token htoken
  obtain ⟨_, htext, hspan⟩ := Cursor.scan_of_token htoken
  refine ⟨⟨cursor.position.offset, ?_, ?_⟩, hstart, ?_⟩
  · rw [← h.rest, htext]
    exact List.take_prefix _ _
  · rw [hspan, Cursor.spanOf, Span.ofOffsets, ← h.position]
  · rw [hstop, Cursor.offset_advance]
    rfl

namespace Reader

variable {source : Text} {r : Reader} {mode : Mode} {token : Token}

/-- The token ahead is cut from the source. -/
theorem Shows.cutFrom (h : r.Shows mode token) (hr : r.Sound) (hplaced : r.Placed source) :
    token.CutFrom source :=
  (Cursor.On.cutFrom hplaced (h.token_front hr)).1

/-- A reader does not stand behind the end of its source. -/
theorem Placed.place_le (h : r.Placed source) : r.place ≤ source.length := by
  have hle := Cursor.On.le h
  rw [place]
  omega

/-- The token ahead lies within the source. -/
theorem Shows.within (h : r.Shows mode token) (hr : r.Sound) (hplaced : r.Placed source) :
    token.span.Within source := by
  apply (h.cutFrom hr hplaced).within
  rw [(h.span hr).1]
  exact hplaced.place_le

/-- The tokens are comments of the source, one after another up to the offset. -/
structure Logged (source : Text) (comments : List Token) (stop : Int) : Prop where
  each : ∀ comment ∈ comments, comment.IsComment ∧ comment.CutFrom source
  row : Span.Row 0 (comments.map (·.span)) stop

variable {comments : List Token} {stop stop' : Int}

/-- What is logged up to an offset is logged up to a later one. -/
theorem Logged.mono (h : Logged source comments stop) (hle : stop ≤ stop') :
    Logged source comments stop' :=
  ⟨h.each, h.row.mono (Int.le_refl _) hle⟩

/-- One more comment that begins where the others end, or later. -/
theorem Logged.collect {comment : Token} (h : Logged source comments stop)
    (hcomment : comment.IsComment) (hcut : comment.CutFrom source)
    (hstart : stop ≤ comment.span.start) :
    Logged source (comments ++ [comment]) comment.span.stop := by
  constructor
  · exact List.forall_mem_append.mpr ⟨h.each, List.forall_mem_singleton.mpr ⟨hcomment, hcut⟩⟩
  · have hle : comment.span.start ≤ comment.span.stop := by
      have hlength := hcut.stop_eq
      omega
    rw [List.map_append]
    exact h.row.append (.single hstart hle (Int.le_refl _))

/-- A turn that collects a comment logs it. -/
theorem past_logged (hahead : r.lookahead = none) (hplaced : r.Placed source)
    (hlogged : Logged source r.comments r.place)
    (htoken : (r.cursor.skip mode).token mode = .ok token) (hcomment : token.kind.isComment = true) :
    Logged source (r.past (r.cursor.skip mode) token).comments
      (r.past (r.cursor.skip mode) token).place := by
  obtain ⟨hcut, hstart, hstop⟩ := (on_skip hahead hplaced mode).cutFrom htoken
  have hskipped : r.place ≤ token.span.start := by
    have hle := (standing_skims hahead hplaced mode).le
    rwa [place, place, front_standing hahead, ← hstart] at hle
  rw [place, front_past hahead, ← hstop]
  exact hlogged.collect (isComment_of_token htoken hcomment) hcut hskipped

/-- Reading on to a token logs the comments before it, and where it fails those before the fault. -/
theorem fillUpTo_logged (mode : Mode) (limit : Nat) (r : Reader) (hr : r.lookahead = none)
    (hplaced : r.Placed source) (hlogged : Logged source r.comments r.place) :
    Ends (fillUpTo mode limit) r (fun _ r' => Logged source r'.comments r'.place)
      fun _ r' => ∃ stop, Logged source r'.comments stop := by
  refine fillUpTo_along (fun r => r.Placed source ∧ Logged source r.comments r.place) ?_ ?_ ?_ ?_
    limit r hr ⟨hplaced, hlogged⟩
  · exact fun r h => ⟨_, h.2⟩
  · exact fun r _ _ h _ => ⟨_, h.2⟩
  · rintro r token hahead ⟨hplaced, hlogged⟩ htoken hcomment
    exact ⟨(past_skims hahead hplaced htoken).placed,
      past_logged hahead hplaced hlogged htoken hcomment⟩
  · rintro r token hahead ⟨hplaced, hlogged⟩ _ _
    exact hlogged.mono (facing_skims hahead hplaced mode token).le

/-- The reader is on the source, and what it collected are comments of the source up to its place. -/
structure Logs (source : Text) (r : Reader) : Prop where
  sound : r.Sound
  placed : r.Placed source
  logged : Logged source r.comments r.place

/-- At the front of a source nothing is collected yet. -/
theorem logs_ofText (source : Text) : (ofText source).Logs source :=
  ⟨sound_ofText source, placed_ofText source, by simp [ofText], .nil (Int.le_refl _)⟩

/-- Looking ahead logs the comments that are passed over. -/
theorem peek_logs (mode : Mode) (r : Reader) (h : r.Logs source) :
    Ends (peek mode) r (fun _ r' => r'.Logs source)
      fun _ r' => ∃ stop, Logged source r'.comments stop := by
  have hlogged : Ends (peek mode) r (fun _ r' => Logged source r'.comments r'.place)
      fun _ r' => ∃ stop, Logged source r'.comments stop := by
    rw [ends_peek h.sound]
    exact fillUpTo_logged mode _ r.rewound rfl h.placed h.logged
  refine (hlogged.and (peek_spots h.sound h.placed mode)).imp fun token r' hr' => ?_
  exact ⟨hr'.2.sound, hr'.2.skims.placed, hr'.1⟩

/-- Consuming logs the comments that are passed over. -/
theorem advance_logs (mode : Mode) (r : Reader) (h : r.Logs source) :
    Ends (advance mode) r (fun _ r' => r'.Logs source)
      fun _ r' => ∃ stop, Logged source r'.comments stop := by
  unfold advance
  apply ((peek_logs mode r h).and (peek_spec h.sound mode)).bind
  rintro token r' ⟨hlogs, hseen⟩
  split
  · rw [ends_bind, ends_modify, ends_pure]
    have hmoves := hseen.shows.moves_consumed hlogs.sound hlogs.placed
    exact ⟨hmoves.sound, hmoves.placed, hlogs.logged.mono hmoves.le⟩
  · exact hlogs

/-- Every program that looks ahead and consumes logs the comments that it passes over. -/
theorem Looks.logs {α : Type} {p : Parser α} (hp : Looks p) (r : Reader) (h : r.Logs source) :
    Ends p r (fun _ r' => r'.Logs source) fun _ r' => ∃ stop, Logged source r'.comments stop :=
  hp.keeps (fun _ hr => ⟨_, hr.logged⟩) peek_logs advance_logs r h

end Reader

end DiagramText
