import DiagramText.Proofs.Reader.Calls

/-!
# Looking again in a mode of the line

A look in one mode of the line leaves no trace for a look in another: what the
second look sees, the comments collected and the place of the reader are the
same as without the first look, and so is the fault where the second look
fails (`Reader.peek_peek`).

The two modes skip the same blanks and find the same comments
(`Mode.IsLine.scan_comment`), so both readings go through the same turns up to
the token at which the first of them stops (`Reader.fillUpTo_rewound`).  A
reading from that token on is the turn with which the second goes on.
-/

namespace DiagramText

/-- The modes of the line skip the same blanks. -/
theorem Mode.IsLine.skip_eq {mode mode' : Mode} (h : mode.IsLine) (h' : mode'.IsLine)
    (cursor : Cursor) : cursor.skip mode = cursor.skip mode' := by
  have hskips : mode.skips = mode'.skips := funext fun c => (h.skips c).trans (h'.skips c).symm
  rw [Cursor.skip, Cursor.skip, hskips]

/-- A comment that one mode of the line reads the other reads, too. -/
theorem Mode.IsLine.token_comment {mode mode' : Mode} {cursor : Cursor} {token : Token}
    (h : mode.IsLine) (h' : mode'.IsLine) (htoken : cursor.token mode = .ok token)
    (hcomment : token.kind.isComment = true) : cursor.token mode' = .ok token := by
  obtain ⟨lexeme, hscan, rfl⟩ := Cursor.token_eq_ok.mp htoken
  exact Cursor.token_eq_ok.mpr ⟨lexeme, h.scan_comment h' hscan hcomment, rfl⟩

/-- Where blanks were skipped none are left. -/
theorem Cursor.skip_skip (mode : Mode) (cursor : Cursor) :
    (cursor.skip mode).skip mode = cursor.skip mode := by
  apply Cursor.skip_eq_self
  rw [Cursor.skip_rest, Mode.strip_strip]

namespace Reader

variable {mode mode' : Mode} {token : Token} {r r' : Reader}

/-- A reading in one mode of the line up to a token, and then another from that token on in the other
mode, come to what the other mode reads at once.  The induction is on the turns up to the token: each of
them collects a comment, which has a character of its own. -/
theorem fillUpTo_rewound (h : mode.IsLine) (h' : mode'.IsLine) {limit limit' further : Nat}
    (hr : r.lookahead = none) (hlimit' : r.cursor.rest.length < limit') (hfurther : 0 < further)
    (hread : fillUpTo mode limit r = .ok token r') :
    fillUpTo mode' further r'.rewound = fillUpTo mode' limit' r := by
  induction limit generalizing limit' r with
  | zero => cases hread
  | succ limit ih =>
      obtain ⟨limit', rfl⟩ : ∃ n, limit' = n + 1 := ⟨limit' - 1, by omega⟩
      obtain ⟨further, rfl⟩ : ∃ n, further = n + 1 := ⟨further - 1, by omega⟩
      have hskip := h.skip_eq h' r.cursor
      rw [fillUpTo_succ] at hread
      cases htoken : (r.cursor.skip mode).token mode with
      | error error =>
          rw [htoken] at hread
          cases hread
      | ok found =>
          rw [htoken] at hread
          by_cases hcomment : found.kind.isComment = true
          · -- Both modes collect the comment.
            have hother := h.token_comment h' htoken hcomment
            simp only [hcomment, if_true] at hread
            have hshorter : (r.past (r.cursor.skip mode) found).cursor.rest.length < limit' :=
              Nat.lt_of_lt_of_le (Cursor.length_rest_past_lt htoken hcomment)
                (Nat.le_of_lt_succ hlimit')
            have hahead : (r.past (r.cursor.skip mode) found).lookahead = none := hr
            rw [ih hahead hshorter hread, fillUpTo_succ mode' limit', ← hskip, hother]
            simp [hcomment]
          · -- The one mode stops here, and the other reads on from here.
            simp only [hcomment, Bool.false_eq_true, if_false] at hread
            obtain ⟨rfl, rfl⟩ := EStateM.Result.ok.inj hread
            have hrewound : (r.facing mode (r.cursor.skip mode) found).rewound =
                r.standing (r.cursor.skip mode) := by
              simp only [rewound, front, facing, standing, hr]
            have hhere : (r.standing (r.cursor.skip mode)).cursor.skip mode' = r.cursor.skip mode := by
              rw [hskip]
              exact Cursor.skip_skip mode' r.cursor
            rw [hrewound, fillUpTo_succ, fillUpTo_succ, hhere, ← hskip]
            cases hother : (r.cursor.skip mode).token mode' with
            | error error => rfl
            | ok other =>
                have hplain : other.kind.isComment = false := by
                  refine Bool.eq_false_iff.mpr fun hother' => hcomment ?_
                  have hsame := h'.token_comment h hother hother'
                  obtain rfl := Except.ok.inj (htoken.symm.trans hsame)
                  exact hother'
                simp only [hplain, Bool.false_eq_true, if_false]
                rfl

/-- A look in one mode of the line does not change what a look in another sees: after any calls, in
whatever modes and whether or not they failed, a second look comes to the same token or to the same fault
and leaves the same reader as it would without the first. -/
theorem peek_peek {source : Text} {calls : List Call} (h : mode.IsLine) (h' : mode'.IsLine)
    (hpeek : peek mode (after calls (ofText source)) = .ok token r') :
    peek mode' r' = peek mode' (after calls (ofText source)) := by
  obtain ⟨⟨hsound, _⟩, _⟩ := delivered_along (sound_ofText source) (placed_ofText source) calls
  have hr' := ((peek_spec hsound mode).ok hpeek).sound
  rw [peek_eq_fill hsound] at hpeek
  rw [peek_eq_fill hsound, peek_eq_fill hr']
  exact fillUpTo_rewound h h' rfl (Nat.lt_succ_self _) (Nat.succ_pos _) hpeek

/-- After a look that failed behind a comment, a look at a label and then one at a statement, to which the
quote is never closed. -/
theorem peek_peek_quote :
    ∃ token r', token.text = "'b".toList ∧
      peek .label (after [.advance .declaration, .peek .arguments] (ofText "a #c\n 'b".toList)) =
        .ok token r' ∧
      peek .declaration r' =
        peek .declaration (after [.advance .declaration, .peek .arguments] (ofText "a #c\n 'b".toList)) := by
  obtain ⟨token, r', hpeek, htext⟩ := exists_ok_of_result (p := peek .label)
    (s := after [.advance .declaration, .peek .arguments] (ofText "a #c\n 'b".toList))
    (q := (·.text == "'b".toList)) (by decide +kernel)
  exact ⟨token, r', eq_of_beq htext, hpeek, peek_peek (.inr rfl) (.inl rfl) hpeek⟩

end Reader

end DiagramText
