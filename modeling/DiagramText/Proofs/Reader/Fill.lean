import DiagramText.Proofs.Outcome

/-!
# Reading on

A reader that has nothing ahead reads on turn by turn: past the blanks it stops
at a fault (`Reader.standing`), collects a comment and goes on (`Reader.past`),
or keeps the token ahead (`Reader.facing`).  `Reader.fillUpTo_succ` gives one
turn, and `Reader.fillUpTo_along` what a whole reading shows, from what each
kind of turn shows of a reader for which an invariant holds.
-/

namespace DiagramText

namespace Reader

variable {mode : Mode} {token : Token} {r : Reader}

/-- The reader that stands here. -/
def standing (r : Reader) (here : Cursor) : Reader :=
  { r with cursor := here }

/-- The reader that stands past a comment which begins here, and collected it. -/
def past (r : Reader) (here : Cursor) (comment : Token) : Reader :=
  { r with
    cursor := here.advance comment.text.length
    comments := r.comments ++ [comment]
    lineBreak := r.lineBreak ||
      (comment.kind == .comment && comment.text.getLast?.any isBreak) }

/-- The reader that has a token ahead which begins here. -/
def facing (r : Reader) (mode : Mode) (here : Cursor) (token : Token) : Reader :=
  { r with
    cursor := here.advance token.text.length
    lookahead := some ⟨token, mode, here⟩ }

theorem readToken_of_error {error : LexError} (h : (r.cursor.skip mode).token mode = .error error) :
    readToken mode r = .error (.malformed (.lexical error)) (r.standing (r.cursor.skip mode)) := by
  simp only [readToken, h, standing]

theorem readToken_of_ok (h : (r.cursor.skip mode).token mode = .ok token) :
    readToken mode r = .ok (token, r.cursor.skip mode)
      (r.standing ((r.cursor.skip mode).advance token.text.length)) := by
  simp only [readToken, h, standing]

/-- One turn of reading on. -/
theorem fillUpTo_succ (mode : Mode) (limit : Nat) (r : Reader) :
    fillUpTo mode (limit + 1) r =
      match (r.cursor.skip mode).token mode with
      | .error error => .error (.malformed (.lexical error)) (r.standing (r.cursor.skip mode))
      | .ok token =>
        if token.kind.isComment then fillUpTo mode limit (r.past (r.cursor.skip mode) token)
        else .ok token (r.facing mode (r.cursor.skip mode) token) := by
  rw [fillUpTo]
  cases htoken : (r.cursor.skip mode).token mode with
  | error error => rw [bind_error (readToken_of_error htoken)]
  | ok token =>
      rw [bind_ok (readToken_of_ok htoken)]
      by_cases hcomment : token.kind.isComment = true
      · simp only [hcomment, if_true]
        rfl
      · simp only [hcomment, Bool.false_eq_true, if_false]
        rfl

/-- A reading on, for which an invariant holds as long as it collects comments: it runs out of turns,
stops at a fault, or keeps a token ahead.  The induction is on the turns. -/
theorem fillUpTo_along (along : Reader → Prop) {post : Token → Reader → Prop}
    {failed : Fault → Reader → Prop}
    (stalled : ∀ r, along r → failed .stalled r)
    (stands : ∀ (r : Reader) (error : LexError), r.lookahead = none → along r →
      (r.cursor.skip mode).token mode = .error error →
      failed (.malformed (.lexical error)) (r.standing (r.cursor.skip mode)))
    (passes : ∀ (r : Reader) (token : Token), r.lookahead = none → along r →
      (r.cursor.skip mode).token mode = .ok token → token.kind.isComment = true →
      along (r.past (r.cursor.skip mode) token))
    (faces : ∀ (r : Reader) (token : Token), r.lookahead = none → along r →
      (r.cursor.skip mode).token mode = .ok token → token.kind.isComment = false →
      post token (r.facing mode (r.cursor.skip mode) token))
    (limit : Nat) (r : Reader) (hahead : r.lookahead = none) (hr : along r) :
    Ends (fillUpTo mode limit) r post failed := by
  induction limit generalizing r with
  | zero => exact stalled r hr
  | succ limit ih =>
      unfold Ends
      rw [fillUpTo_succ]
      cases htoken : (r.cursor.skip mode).token mode with
      | error error => exact stands r error hahead hr htoken
      | ok token =>
          by_cases hcomment : token.kind.isComment = true
          · simp only [hcomment, if_true]
            exact ih _ hahead (passes r token hahead hr htoken hcomment)
          · have hplain : token.kind.isComment = false := Bool.eq_false_iff.mpr hcomment
            simp only [hplain, Bool.false_eq_true, if_false]
            exact faces r token hahead hr htoken hplain

end Reader

end DiagramText
