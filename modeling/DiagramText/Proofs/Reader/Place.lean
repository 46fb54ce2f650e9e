import DiagramText.Proofs.Lexeme.Scan
import DiagramText.Proofs.Reader.Progress

/-!
# Where a reader is in its source

A reader that was placed on a source stays on it: the text that it has not
consumed is the source from some offset on (`Reader.Placed`).  As it moves from
one offset to a later one, the characters in between that are neither white
space nor semicolons stand in the tokens it consumed and in the comments it
collected.  `Reader.Skims` says that nothing but comments was passed over, as it
is when a reader looks ahead, and `Reader.Touches` that nothing but comments
stands between a span and the reader.
-/

namespace DiagramText

/-- The character at this offset is neither white space nor a semicolon. -/
def Text.Visible (source : Text) (offset : Nat) : Prop :=
  ∃ c, source[offset]? = some c ∧ isBlank c = false ∧ c ≠ ';'

/-- The offset lies in the span. -/
def Span.Holds (span : Span) (offset : Nat) : Prop :=
  span.start ≤ offset ∧ offset < span.stop

/-- What is visible from the one offset up to the other lies in one of the spans. -/
def Covered (source : Text) (spans : List Span) (start stop : Int) : Prop :=
  ∀ offset : Nat, start ≤ offset → offset < stop → source.Visible offset →
    ∃ span ∈ spans, span.Holds offset

namespace Covered

variable {source : Text} {spans others : List Span} {start mid stop : Int}

/-- Nothing stands between an offset and one that is not after it. -/
theorem of_le (h : stop ≤ start) : Covered source spans start stop := by
  intro offset hstart hstop
  omega

/-- More spans cover as much. -/
theorem mono (h : Covered source spans start stop) (hspans : spans ⊆ others) :
    Covered source others start stop := by
  intro offset hstart hstop hvisible
  obtain ⟨span, hspan, hholds⟩ := h offset hstart hstop hvisible
  exact ⟨span, hspans hspan, hholds⟩

/-- What is covered up to an offset and from there on is covered as a whole. -/
theorem append (h : Covered source spans start mid) (h' : Covered source spans mid stop) :
    Covered source spans start stop := by
  intro offset hstart hstop
  by_cases hmid : (offset : Int) < mid
  · exact h offset hstart hmid
  · exact h' offset (by omega) hstop

/-- A span covers what it holds. -/
theorem of_mem {span : Span} (hspan : span ∈ spans) (hstart : span.start ≤ start)
    (hstop : stop ≤ span.stop) : Covered source spans start stop :=
  fun offset hfrom hto _ => ⟨span, hspan, by omega, by omega⟩

end Covered

namespace Cursor

/-- A cursor moves by as many characters as it is moved. -/
@[simp] theorem offset_advance (cursor : Cursor) (count : Nat) :
    (cursor.advance count).position.offset = cursor.position.offset + count :=
  cursor.position.offset_advance count cursor.rest

/-- What is ahead of the cursor is the source from its offset on, and the cursor knows the line and
column of that offset. -/
structure On (source : Text) (cursor : Cursor) : Prop where
  rest : cursor.rest = source.drop cursor.position.offset
  le : cursor.position.offset ≤ source.length
  position : cursor.position = .ofOffset source cursor.position.offset

variable {source : Text} {cursor : Cursor}

/-- The characters ahead are those of the source. -/
theorem On.getElem? (h : cursor.On source) (k : Nat) :
    cursor.rest[k]? = source[cursor.position.offset + k]? := by
  rw [h.rest, List.getElem?_drop]

/-- A cursor that stays before the end stays on the source. -/
theorem On.advance (h : cursor.On source) {count : Nat} (hcount : count ≤ cursor.rest.length) :
    (cursor.advance count).On source := by
  have hlength := congrArg List.length h.rest
  have hle := h.le
  rw [List.length_drop] at hlength
  refine ⟨?_, ?_, ?_⟩
  · rw [advance_rest, offset_advance, h.rest, List.drop_drop]
  · rw [offset_advance]
    omega
  · rw [offset_advance, Position.ofOffset, ← Position.advance_advance, ← Position.ofOffset,
      ← h.position, ← h.rest]
    rfl

/-- Blanks and semicolons are not visible. -/
theorem On.covered_of_not_visible (h : cursor.On source) {spans : List Span} {count : Nat}
    (hpassed : ∀ k c, k < count → cursor.rest[k]? = some c → isBlank c = true ∨ c = ';') :
    Covered source spans cursor.position.offset (cursor.advance count).position.offset := by
  intro offset hstart hstop ⟨c, hc, hblank, hsemicolon⟩
  rw [offset_advance] at hstop
  obtain ⟨k, rfl⟩ : ∃ k, offset = cursor.position.offset + k :=
    ⟨offset - cursor.position.offset, by omega⟩
  rw [← h.getElem?] at hc
  rcases hpassed k c (by omega) hc with hc | hc
  · rw [hblank] at hc
    cases hc
  · exact absurd hc hsemicolon

end Cursor

namespace Mode

/-- What a mode skips is white space. -/
theorem isBlank_of_skips {mode : Mode} {c : Char} (h : mode.skips c = true) : isBlank c = true := by
  cases mode with
  | declaration => exact isBlank_of_isInlineBlank h
  | label => exact isBlank_of_isInlineBlank h
  | arguments => exact h
  | constraints => exact h

end Mode

/-- What stands in the stretch at the front satisfies its condition. -/
theorem Text.of_lt_run {p : Char → Bool} {s : Text} {k : Nat} {c : Char} (hk : k < Text.run p s)
    (hc : s[k]? = some c) : p c = true := by
  have hfront : (s.takeWhile p)[k]? = some c := by
    rw [← hc, ← List.getElem?_append_left hk, List.takeWhile_append_dropWhile]
  exact List.all_eq_true.mp List.all_takeWhile c (List.mem_of_getElem? hfront)

namespace Reader

/-- The offset of the front. -/
def place (r : Reader) : Int :=
  r.front.position.offset

/-- What was not consumed is the source from some offset on. -/
def Placed (source : Text) (r : Reader) : Prop :=
  r.front.On source

/-- The spans of the comments that were collected. -/
def commentSpans (r : Reader) : List Span :=
  r.comments.map (·.span)

variable {source : Text} {r r' r'' : Reader} {mode : Mode} {token : Token}

/-- A reader stands at the front of its source at first. -/
theorem placed_ofText (source : Text) : (ofText source).Placed source :=
  ⟨rfl, Nat.zero_le _, rfl⟩

/-- The reader is at the same place or later on the source, and kept its comments. -/
structure Moves (source : Text) (r r' : Reader) : Prop where
  sound : r'.Sound
  placed : r'.Placed source
  le : r.place ≤ r'.place
  comments : r.comments ⊆ r'.comments

/-- The reader has passed over nothing visible but comments, which it collected. -/
structure Skims (source : Text) (r r' : Reader) : Prop where
  placed : r'.Placed source
  le : r.place ≤ r'.place
  comments : r.comments ⊆ r'.comments
  covered : Covered source r'.commentSpans r.place r'.place

/-- Between the end of the span and the reader stands nothing visible but collected comments. -/
def Touches (source : Text) (span : Span) (r : Reader) : Prop :=
  Covered source r.commentSpans span.stop r.place

/-- Comments that are kept keep their spans. -/
theorem commentSpans_subset (h : r.comments ⊆ r'.comments) : r.commentSpans ⊆ r'.commentSpans :=
  List.map_subset _ h

theorem Skims.refl (hr : r.Placed source) : Skims source r r :=
  ⟨hr, Int.le_refl _, List.Subset.refl _, .of_le (Int.le_refl _)⟩

/-- What is passed over by two readers in turn is passed over. -/
theorem Skims.trans (h : Skims source r r') (h' : Skims source r' r'') : Skims source r r'' :=
  ⟨h'.placed, Int.le_trans h.le h'.le, List.Subset.trans h.comments h'.comments,
    (h.covered.mono (commentSpans_subset h'.comments)).append h'.covered⟩

/-- A reader that passes over comments moves on. -/
theorem Skims.moves (h : Skims source r r') (hr : r'.Sound) : Moves source r r' :=
  ⟨hr, h.placed, h.le, h.comments⟩

/-- A reader that moves twice moves on. -/
theorem Moves.trans (h : Moves source r r') (h' : Moves source r' r'') : Moves source r r'' :=
  ⟨h'.sound, h'.placed, Int.le_trans h.le h'.le, List.Subset.trans h.comments h'.comments⟩

/-- A span that reaches the one reader reaches the other, if only comments stand in between. -/
theorem Touches.skims {span : Span} (h : Touches source span r) (h' : Skims source r r') :
    Touches source span r' :=
  (h.mono (commentSpans_subset h'.comments)).append h'.covered

/-- Only the front and the comments matter. -/
theorem Skims.congr {r₁ r₁' : Reader} (h : Skims source r r') (hfront : r₁.front = r.front)
    (hcomments : r₁.comments = r.comments) (hfront' : r₁'.front = r'.front)
    (hcomments' : r₁'.comments = r'.comments) : Skims source r₁ r₁' := by
  obtain ⟨hplaced, hle, hsubset, hcovered⟩ := h
  refine ⟨?_, ?_, ?_, ?_⟩
  · rwa [Placed, hfront']
  · rwa [place, place, hfront, hfront']
  · rwa [hcomments, hcomments']
  · rwa [commentSpans, place, place, hfront, hfront', hcomments']

/-- A reader at a cursor further on has skimmed if what is visible in between is in its comments. -/
theorem Skims.of_front {cursor : Cursor} (hfront : r'.front = cursor) (hcursor : cursor.On source)
    (hle : r.place ≤ cursor.position.offset) (hcomments : r.comments ⊆ r'.comments)
    (hcovered : Covered source r'.commentSpans r.place cursor.position.offset) :
    Skims source r r' := by
  obtain rfl := hfront
  exact ⟨hcursor, hle, hcomments, hcovered⟩

/-! ## Tokens -/

/-- A token stands at the cursor it was read at. -/
theorem span_of_token {cursor : Cursor} (h : cursor.token mode = .ok token) :
    token.span.start = cursor.position.offset ∧
      token.span.stop = cursor.position.offset + token.text.length ∧
      token.text.length ≤ cursor.rest.length := by
  obtain ⟨hscan, _, hspan⟩ := Cursor.scan_of_token h
  rw [hspan]
  exact ⟨rfl, rfl, (Mode.scan_bounds hscan).1⟩

/-- The token ahead stands at the place of the reader. -/
theorem Shows.span (h : r.Shows mode token) (hr : r.Sound) :
    token.span.start = r.place ∧ token.span.stop = r.place + token.text.length := by
  obtain ⟨hstart, hstop, _⟩ := span_of_token (h.token_front hr)
  exact ⟨hstart, hstop⟩

/-- The reader that consumed the token ahead is right after it. -/
theorem Shows.front_consumed (h : r.Shows mode token) (hr : r.Sound) :
    r.consumed.front = r.front.advance token.text.length := by
  obtain ⟨origin, ho⟩ := h
  simp [consumed, front, ho, (hr.lookahead _ ho).2.2.2]

/-- Behind the token ahead the reader stands where its span stops. -/
theorem Shows.place_consumed (h : r.Shows mode token) (hr : r.Sound) :
    r.consumed.place = token.span.stop := by
  rw [(h.span hr).2, place, h.front_consumed hr, Cursor.offset_advance, place]
  rfl

/-- Behind the token ahead the reader is on the source. -/
theorem Shows.placed_consumed (h : r.Shows mode token) (hr : r.Sound)
    (hplaced : r.Placed source) : r.consumed.Placed source := by
  rw [Placed, h.front_consumed hr]
  refine hplaced.advance ?_
  rw [← text_eq_front, (h.scan hr).2]
  exact List.length_take_le' _ _

/-- Consuming the token ahead moves the reader on. -/
theorem Shows.moves_consumed (h : r.Shows mode token) (hr : r.Sound) (hplaced : r.Placed source) :
    Moves source r r.consumed := by
  refine ⟨hr.consumed, h.placed_consumed hr hplaced, ?_, List.Subset.refl _⟩
  rw [h.place_consumed hr, (h.span hr).2]
  omega

/-- A terminator is a line break or a semicolon. -/
theorem of_terminatorLength {s : Text} {k : Nat} {c : Char} (hk : k < terminatorLength s)
    (hc : s[k]? = some c) : isBlank c = true ∨ c = ';' := by
  unfold terminatorLength at hk
  split at hk
  · obtain rfl : k = 0 := by omega
    exact .inr (Option.some.inj hc).symm
  · unfold breakLength at hk
    split at hk
    · have hk' : k = 0 ∨ k = 1 := by omega
      rcases hk' with rfl | rfl <;> exact .inl (Option.some.inj hc ▸ by decide)
    · obtain rfl : k = 0 := by omega
      exact .inl (Option.some.inj hc ▸ by decide)
    · obtain rfl : k = 0 := by omega
      exact .inl (Option.some.inj hc ▸ by decide)
    · omega

/-- Consuming a terminator passes over nothing visible. -/
theorem Shows.skims_consumed (h : r.Shows .declaration token) (hr : r.Sound)
    (hplaced : r.Placed source) (hkind : token.kind = .terminator) : Skims source r r.consumed := by
  obtain ⟨_, hplaced', hle, hcomments⟩ := h.moves_consumed hr hplaced
  refine ⟨hplaced', hle, hcomments, ?_⟩
  have hscan := (h.scan hr).1
  rw [hkind] at hscan
  rw [place, place, h.front_consumed hr]
  refine Cursor.On.covered_of_not_visible hplaced ?_
  intro k c hk hc
  rw [← (Mode.scan_terminator.mp hscan).1, text_eq_front] at hk
  exact of_terminatorLength hk hc

/-- A mark that is ahead stands at its place in the source. -/
theorem Shows.getElem?_mark {mark : Char} (h : r.Shows mode token) (hr : r.Sound)
    (hplaced : r.Placed source) (hmark : token.isPunct mark = true) :
    source[r.front.position.offset]? = some mark ∧ token.span.stop = r.place + 1 := by
  have htext := h.text_eq_cons hr hmark
  constructor
  · rw [← Nat.add_zero r.front.position.offset, ← hplaced.getElem?, ← text_eq_front, htext]
    rfl
  · have hconsumed := congrArg List.length (h.text_eq_append hr)
    rw [htext, List.length_append, List.length_cons] at hconsumed
    rw [(h.span hr).2]
    omega

/-! ## Looking ahead -/

section turns

variable (hahead : r.lookahead = none) (hplaced : r.Placed source)

include hahead hplaced

/-- With nothing ahead a reader skips blanks from its cursor on. -/
theorem on_skip (mode : Mode) : (r.cursor.skip mode).On source := by
  rw [Placed, front_eq_cursor hahead] at hplaced
  exact hplaced.advance (Text.run_le_length _ _)

/-- A turn that stops at a fault. -/
theorem standing_skims (mode : Mode) : Skims source r (r.standing (r.cursor.skip mode)) := by
  have hplace : r.place = r.cursor.position.offset := by rw [place, front_eq_cursor hahead]
  refine .of_front (front_standing hahead _) (on_skip hahead hplaced mode) ?_ (List.Subset.refl _) ?_
  · rw [hplace, Cursor.skip, Cursor.offset_advance]
    omega
  · rw [hplace]
    rw [Placed, front_eq_cursor hahead] at hplaced
    refine hplaced.covered_of_not_visible fun k c hk hc => .inl ?_
    exact Mode.isBlank_of_skips (Text.of_lt_run hk hc)

/-- A turn that collects a comment, whose span covers it. -/
theorem past_skims (htoken : (r.cursor.skip mode).token mode = .ok token) :
    Skims source r (r.past (r.cursor.skip mode) token) := by
  obtain ⟨hstart, hstop, hlength⟩ := span_of_token htoken
  have hplace : (r.standing (r.cursor.skip mode)).place = (r.cursor.skip mode).position.offset := by
    rw [place, front_standing hahead]
  have hmem : token ∈ r.comments ++ [token] := by simp
  refine (standing_skims hahead hplaced mode).trans ?_
  refine .of_front (front_past hahead _ _) ((on_skip hahead hplaced mode).advance hlength) ?_
    (List.subset_append_left _ _) (.of_mem (List.mem_map_of_mem hmem) ?_ ?_)
  · rw [hplace, Cursor.offset_advance]
    omega
  · exact Int.le_of_eq (hstart.trans hplace.symm)
  · rw [Cursor.offset_advance, hstop]
    omega

/-- A turn that keeps the token ahead. -/
theorem facing_skims (mode : Mode) (token : Token) :
    Skims source r (r.facing mode (r.cursor.skip mode) token) :=
  (standing_skims hahead hplaced mode).congr rfl rfl (front_standing hahead _).symm rfl

/-- Reading on to a token that is no comment skims. -/
theorem fillUpTo_skims (mode : Mode) (limit : Nat) :
    Ends (fillUpTo mode limit) r (fun _ r' => Skims source r r') fun _ _ => True := by
  refine fillUpTo_along (Skims source r) ?_ ?_ ?_ ?_ limit r hahead (.refl hplaced)
  · exact fun _ _ => trivial
  · exact fun _ _ _ _ _ => trivial
  · exact fun r' token hahead' h htoken _ => h.trans (past_skims hahead' h.placed htoken)
  · exact fun r' token hahead' h _ _ => h.trans (facing_skims hahead' h.placed mode token)

end turns

/-- From the one reader the mode comes to the token that the other has ahead, past comments only; a
reader that has a token of the mode ahead does not move. -/
structure Spots (source : Text) (mode : Mode) (r : Reader) (token : Token) (r' : Reader) : Prop where
  sound : r'.Sound
  shows : r'.Shows mode token
  skims : Skims source r r'
  stays : ∀ seen, r.Shows mode seen → r' = r

namespace Spots

variable (h : Spots source mode r token r')

include h in
/-- To the token that is spotted the reader moves on. -/
theorem moves : Moves source r r' :=
  h.skims.moves h.sound

include h in
/-- Behind the token that is spotted the reader moves on. -/
theorem moves_consumed : Moves source r r'.consumed :=
  h.moves.trans (h.shows.moves_consumed h.sound h.skims.placed)

include h in
/-- The token begins where the reader already was, if it had a token of the mode ahead. -/
theorem start {seen : Token} (hseen : r.Shows mode seen) : token.span.start = r.place := by
  rw [(h.shows.span h.sound).1, h.stays seen hseen]

end Spots

/-- Looking ahead spots the token. -/
theorem peek_spots (hr : r.Sound) (hplaced : r.Placed source) (mode : Mode) :
    Ends (peek mode) r (Spots source mode r) fun _ _ => True := by
  have hskims : Ends (peek mode) r (fun _ r' => Skims source r r') fun _ _ => True := by
    rw [ends_peek hr]
    refine (fillUpTo_skims (r := r.rewound) rfl hplaced mode _).imp fun _ r' h => ?_
    exact h.congr rfl rfl rfl rfl
  have hstays : Ends (peek mode) r (fun _ r' => ∀ seen, r.Shows mode seen → r' = r)
      fun _ _ => True := by
    by_cases hseen : ∃ seen, r.Shows mode seen
    · obtain ⟨seen, hseen⟩ := hseen
      exact (ends_of_ok hseen.peek_eq).mpr fun _ _ => rfl
    · exact ends_true.imp fun _ _ _ seen h => absurd ⟨seen, h⟩ hseen
  refine ((hskims.and hstays).and (peek_spec hr mode)).imp fun token r' h => ?_
  exact ⟨h.2.sound, h.2.shows, h.1.1, h.1.2⟩

/-- What is seen on the same line is the token that is spotted. -/
theorem peekSameLine_spots (hr : r.Sound) (hplaced : r.Placed source) (mode : Mode) :
    Ends (peekSameLine mode) r
      (fun seen r' => ∃ token, Spots source mode r token r' ∧ ∀ found, seen = some found →
        found = token) fun _ _ => True := by
  unfold peekSameLine
  refine (peek_spots hr hplaced mode).bind fun token r' h => ?_
  refine ends_bind.mpr ⟨token, h, fun found hfound => ?_⟩
  split at hfound
  · cases hfound
  · exact (Option.some.inj hfound).symm

/-- An expected mark is spotted and consumed. -/
theorem expect_spots (hr : r.Sound) (hplaced : r.Placed source) (mode : Mode) (mark : Char) :
    Ends (expect mode [mark]) r
      (fun token r' => ∃ r₁, Spots source mode r token r₁ ∧ token.isPunct mark = true ∧
        r' = r₁.consumed) fun _ _ => True := by
  unfold expect
  refine (peek_spots hr hplaced mode).bind fun token r₁ h => ?_
  refine ends_ite.mpr ⟨fun hmark => ?_, fun _ => trivial⟩
  exact h.shows.advance_spec (Token.kind_ne_eof_of_isPunct hmark) ⟨r₁, h, hmark, rfl⟩

/-- A repetition relates its ends as its turns do.  The induction is on the turns. -/
theorem manyUpTo_relates {α : Type} {step : Parser (Option α)}
    {R : Reader → List α → Reader → Prop}
    (hstep : ∀ r : Reader, r.Sound → r.Placed source →
      Ends step r (fun found r' => Moves source r r' ∧ (found = none → R r [] r') ∧
        ∀ a, found = some a → ∀ others r'', R r' others r'' → R r (a :: others) r'')
        fun _ _ => True)
    (limit : Nat) (r : Reader) (hr : r.Sound) (hplaced : r.Placed source) :
    Ends (manyUpTo step limit) r (fun found r' => Moves source r r' ∧ R r found r')
      fun _ _ => True := by
  induction limit generalizing r with
  | zero => trivial
  | succ limit ih =>
      unfold manyUpTo
      refine (hstep r hr hplaced).bind ?_
      rintro found r' ⟨hmoves, hnone, hsome⟩
      cases found with
      | none => exact ⟨hmoves, hnone rfl⟩
      | some a =>
          refine (ih r' hmoves.sound hmoves.placed).bind ?_
          rintro others r'' ⟨hlater, hothers⟩
          exact ⟨hmoves.trans hlater, hsome a rfl others r'' hothers⟩

/-- A repetition relates its readers if each of its steps does so for those after it. -/
theorem many_relates {α : Type} {step : Parser (Option α)} {R : Reader → List α → Reader → Prop}
    (hstep : ∀ r : Reader, r.Sound → r.Placed source →
      Ends step r (fun found r' => Moves source r r' ∧ (found = none → R r [] r') ∧
        ∀ a, found = some a → ∀ others r'', R r' others r'' → R r (a :: others) r'')
        fun _ _ => True)
    (hr : r.Sound) (hplaced : r.Placed source) :
    Ends (many step) r (fun found r' => Moves source r r' ∧ R r found r') fun _ _ => True :=
  manyUpTo_relates hstep _ r hr hplaced

/-- A repetition of steps that move moves. -/
theorem many_moves {α : Type} {step : Parser (Option α)}
    (hstep : ∀ r : Reader, r.Sound → r.Placed source →
      Ends step r (fun _ r' => Moves source r r') fun _ _ => True)
    (hr : r.Sound) (hplaced : r.Placed source) :
    Ends (many step) r (fun _ r' => Moves source r r') fun _ _ => True := by
  refine (many_relates (R := fun _ _ _ => True) ?_ hr hplaced).imp fun _ _ h => h.1
  exact fun r hr hplaced => (hstep r hr hplaced).imp fun _ _ h => ⟨h, fun _ => trivial, by simp⟩

end Reader

end DiagramText
