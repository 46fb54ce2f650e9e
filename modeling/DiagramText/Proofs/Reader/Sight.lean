import DiagramText.Proofs.Reader.Front

/-!
# What a reader sees

What a sound reader sees in any mode is what the mode finds in the text that was
not consumed (`Reader.peek_spec`), and consuming a token leaves the text after
it (`Reader.Shows.text_consumed`).
-/

namespace DiagramText

namespace Reader

/-- The reader has this token ahead, read in this mode. -/
def Shows (r : Reader) (mode : Mode) (token : Token) : Prop :=
  ∃ origin, r.lookahead = some ⟨token, mode, origin⟩

/-- The reader after the token ahead was consumed. -/
def consumed (r : Reader) : Reader :=
  { r with lookahead := none, lineBreak := false }

/-- At the front of a source a reader is sound. -/
theorem sound_ofText (source : Text) : (ofText source).Sound where
  lookahead _ h := by cases h
  comments _ h := by cases h

/-- A reader is sound behind the token ahead. -/
theorem Sound.consumed {r : Reader} (hr : r.Sound) : r.consumed.Sound where
  lookahead _ h := by cases h
  comments := hr.comments

@[simp] theorem remarks_consumed (r : Reader) : r.consumed.remarks = r.remarks := rfl

namespace Shows

variable {r : Reader} {mode : Mode} {token : Token}

/-- The token ahead is read at the front. -/
theorem token_front (h : r.Shows mode token) (hr : r.Sound) : r.front.token mode = .ok token := by
  obtain ⟨origin, ho⟩ := h
  rw [front, ho]
  exact (hr.lookahead _ ho).2.1

/-- The token ahead is the lexeme at the front of the text. -/
theorem scan (h : r.Shows mode token) (hr : r.Sound) :
    mode.scan r.text = .ok ⟨token.kind, token.text.length⟩ ∧
      token.text = r.text.take token.text.length := by
  obtain ⟨hscan, htext, _⟩ := Cursor.scan_of_token (h.token_front hr)
  rw [text_eq_front]
  exact ⟨hscan, htext⟩

/-- Before the token ahead no blanks are left. -/
theorem strip (h : r.Shows mode token) (hr : r.Sound) : mode.strip r.text = r.text := by
  obtain ⟨origin, ho⟩ := h
  simpa [text, ho] using (hr.lookahead _ ho).1

/-- The token ahead is no comment. -/
theorem not_isComment (h : r.Shows mode token) (hr : r.Sound) :
    token.kind.isComment = false := by
  obtain ⟨origin, ho⟩ := h
  exact (hr.lookahead _ ho).2.2.1

/-- The text begins with that of the token ahead. -/
theorem text_eq (h : r.Shows mode token) (hr : r.Sound) :
    r.text = token.text ++ r.text.drop token.text.length := by
  conv => lhs; rw [← List.take_append_drop token.text.length r.text, ← (h.scan hr).2]

/-- Consuming the token ahead leaves what follows it. -/
theorem text_consumed (h : r.Shows mode token) (hr : r.Sound) :
    r.consumed.text = r.text.drop token.text.length := by
  obtain ⟨origin, ho⟩ := h
  simp [consumed, text, ho, (hr.lookahead _ ho).2.2.2]

/-- The token ahead stands in front of what is left behind it. -/
theorem text_eq_append (h : r.Shows mode token) (hr : r.Sound) :
    r.text = token.text ++ r.consumed.text := by
  rw [h.text_consumed hr]
  exact h.text_eq hr

/-- The end of the source is ahead exactly when nothing else is. -/
theorem eof_iff (h : r.Shows mode token) (hr : r.Sound) : token.kind = .eof ↔ r.text = [] :=
  (Mode.scan_bounds (h.scan hr).1).2.1

/-- Consuming a token that is not the end of the source leaves less. -/
theorem ahead_consumed (h : r.Shows mode token) (hr : r.Sound) (hkind : token.kind ≠ .eof) :
    r.consumed.ahead < r.ahead := by
  obtain ⟨_, heof, hpos⟩ := Mode.scan_bounds (h.scan hr).1
  have hne : r.text ≠ [] := fun hnil => hkind (heof.mpr hnil)
  have hlen := congrArg List.length (h.text_eq_append hr)
  have := hpos.mpr hne
  simp only [List.length_append] at hlen
  rw [ahead_eq, ahead_eq]
  simp only at this
  omega

/-- Looking again at the token ahead changes nothing. -/
theorem peek_eq (h : r.Shows mode token) : peek mode r = .ok token r := by
  obtain ⟨origin, ho⟩ := h
  unfold peek
  rw [get_bind, ho]
  simp [pure, EStateM.pure]

/-- The token ahead is the one that is consumed. -/
theorem advance_eq (h : r.Shows mode token) (hkind : token.kind ≠ .eof) :
    advance mode r = .ok token r.consumed := by
  simp only [advance, bind_ok h.peek_eq, if_pos hkind]
  rfl

end Shows

/-- From the one reader the mode sees the token, and the other has it ahead: it passed over the
comments before the token and collected them. -/
structure Sees (mode : Mode) (r : Reader) (token : Token) (r' : Reader) : Prop where
  sound : r'.Sound
  shows : r'.Shows mode token
  finds : ∃ remarks ends,
    mode.Finds r.text remarks ends ⟨token.kind, token.text.length⟩ r'.text ∧
      r'.remarks = r.remarks ++ remarks ∧ r'.lineBreak = (r.lineBreak || ends)

/-- A look ahead leaves no more to read than there was. -/
theorem Sees.ahead_le {mode : Mode} {r r' : Reader} {token : Token} (h : Sees mode r token r') :
    r'.ahead ≤ r.ahead := by
  obtain ⟨_, _, hfinds, _⟩ := h.finds
  rw [ahead_eq, ahead_eq]
  exact hfinds.suffix.length_le

/-- A token that is ahead in its mode is seen without moving. -/
theorem Shows.sees {mode : Mode} {r : Reader} {token : Token} (h : r.Shows mode token)
    (hr : r.Sound) : Sees mode r token r := by
  refine ⟨hr, h, [], false, ?_, by simp, by simp⟩
  exact .of_strip (h.strip hr) (h.scan hr).1 (h.not_isComment hr)

/-- Reading without a token ahead sees what the mode finds, within as many turns as there are
characters, and one more.  The induction is on the turns; each comment that is passed over takes
at least one character. -/
theorem fillUpTo_spec (mode : Mode) (limit : Nat) (r : Reader)
    (hcomments : ∀ comment ∈ r.comments, comment.IsComment)
    (hlimit : r.cursor.rest.length < limit) :
    Ends (fillUpTo mode limit) r
      (fun token r' => r'.Sound ∧ r'.Shows mode token ∧ ∃ remarks ends,
        mode.Finds r.cursor.rest remarks ends ⟨token.kind, token.text.length⟩ r'.text ∧
          r'.remarks = r.remarks ++ remarks ∧ r'.lineBreak = (r.lineBreak || ends))
      (fun fault r' => Local fault r' ∧ ¬ mode.Legible r.cursor.rest) := by
  induction limit generalizing r with
  | zero => omega
  | succ limit ih =>
      unfold Ends
      rw [fillUpTo_succ]
      cases htoken : (r.cursor.skip mode).token mode with
      | error error => exact ⟨by simp [Local], Cursor.not_legible_of_error htoken⟩
      | ok token =>
          by_cases hcomment : token.kind.isComment = true
          · have hcollected : ∀ comment ∈ (r.past (r.cursor.skip mode) token).comments,
                comment.IsComment :=
              List.forall_mem_append.mpr
                ⟨hcomments, List.forall_mem_singleton.mpr (isComment_of_token htoken hcomment)⟩
            have hshorter : (r.past (r.cursor.skip mode) token).cursor.rest.length < limit :=
              Nat.lt_of_lt_of_le (Cursor.length_rest_past_lt htoken hcomment) (Nat.le_of_lt_succ hlimit)
            have hlater := ih _ hcollected hshorter
            simp only [hcomment, if_true]
            refine hlater.mono ?_ ?_
            · rintro found r' ⟨hsound, hshows, remarks, ends, hfinds, hremarks, hbreak⟩
              refine ⟨hsound, hshows, _, _, Cursor.finds_past htoken hcomment hfinds, ?_, ?_⟩
              · rw [hremarks, remarks_past, List.append_assoc, List.singleton_append]
              · rw [hbreak, lineBreak_past, Bool.or_assoc]
            · rintro fault r' ⟨hfault, hlost⟩
              exact ⟨hfault, fun hlegible => hlost (Cursor.legible_past htoken hcomment hlegible)⟩
          · have hplain : token.kind.isComment = false := Bool.eq_false_iff.mpr hcomment
            simp only [hplain, Bool.false_eq_true, if_false]
            refine ⟨⟨?_, hcomments⟩, ⟨_, rfl⟩, [], false, ?_, by simp [Reader.remarks, facing],
              by simp [facing]⟩
            · intro lookahead hl
              obtain rfl := Option.some.inj hl
              exact ⟨by simp, htoken, hplain, rfl⟩
            · exact Cursor.finds_facing htoken hplain

/-- A sound reader sees in a mode what the mode finds in the text that was not consumed.  It sees
nothing only where nothing is found, and no look ahead goes on forever. -/
theorem peek_spec {r : Reader} (hr : r.Sound) (mode : Mode) :
    Ends (peek mode) r (Sees mode r)
      (fun fault r' => Local fault r' ∧ ¬ mode.Legible r.text) := by
  rw [ends_peek hr, text_eq_front]
  refine (fillUpTo_spec mode _ r.rewound hr.comments (Nat.lt_succ_self _)).imp ?_
  rintro token r' ⟨hsound, hshows, hfinds⟩
  exact ⟨hsound, hshows, by rwa [text_eq_front]⟩

end Reader

end DiagramText
