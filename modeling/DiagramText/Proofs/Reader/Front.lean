import DiagramText.Proofs.Reader.Fill
import DiagramText.Proofs.Reader.Finds

/-!
# The front of a reader

The text that a reader has not consumed begins at its front: at the token ahead,
or at the cursor where none is ahead.  A sound reader keeps a token ahead only
together with the place it can be read from again.  So a look ahead is a reading
on from the front, where what was ahead before, in whatever mode, is read again
(`Reader.peek_eq_fill`).
-/

namespace DiagramText

namespace Reader

/-- The text that was not consumed. -/
def text (r : Reader) : Text :=
  match r.lookahead with
  | some lookahead => lookahead.origin.rest
  | none => r.cursor.rest

theorem ahead_eq (r : Reader) : r.ahead = r.text.length := by
  unfold ahead text
  cases r.lookahead <;> rfl

/-- The items of the comments that were collected, without their spans. -/
def remarks (r : Reader) : List Item :=
  r.comments.map (·.remark)

/-- The token ahead is the one that its mode reads at its origin, where nothing is left to skip,
and the cursor stands right after it; what was collected are comments. -/
structure Sound (r : Reader) : Prop where
  lookahead : ∀ lookahead, r.lookahead = some lookahead →
    lookahead.mode.strip lookahead.origin.rest = lookahead.origin.rest ∧
      lookahead.origin.token lookahead.mode = .ok lookahead.token ∧
      lookahead.token.kind.isComment = false ∧
      r.cursor = lookahead.origin.advance lookahead.token.text.length
  comments : ∀ comment ∈ r.comments, comment.IsComment

/-- Where the text begins that was not consumed. -/
def front (r : Reader) : Cursor :=
  match r.lookahead with
  | some lookahead => lookahead.origin
  | none => r.cursor

theorem text_eq_front (r : Reader) : r.text = r.front.rest := by
  unfold text front
  cases r.lookahead <;> rfl

/-- With nothing ahead the text begins at the cursor. -/
theorem front_eq_cursor {r : Reader} (h : r.lookahead = none) : r.front = r.cursor := by
  rw [front, h]

theorem front_standing {r : Reader} (h : r.lookahead = none) (here : Cursor) :
    (r.standing here).front = here :=
  front_eq_cursor (r := r.standing here) h

theorem front_past {r : Reader} (h : r.lookahead = none) (here : Cursor) (comment : Token) :
    (r.past here comment).front = here.advance comment.text.length :=
  front_eq_cursor (r := r.past here comment) h

@[simp] theorem remarks_past (r : Reader) (here : Cursor) (comment : Token) :
    (r.past here comment).remarks = r.remarks ++ [comment.remark] := by
  simp [remarks, past]

@[simp] theorem lineBreak_past (r : Reader) (here : Cursor) (comment : Token) :
    (r.past here comment).lineBreak = (r.lineBreak || comment.endsLine) := rfl

/-- The reader that has nothing ahead and stands at its front. -/
def rewound (r : Reader) : Reader :=
  { r with cursor := r.front, lookahead := none }

variable {r : Reader}

theorem Sound.rewound (hr : r.Sound) : r.rewound.Sound :=
  ⟨fun _ h => (by cases h), hr.comments⟩

/-- With nothing ahead a reader stands at its front. -/
theorem rewound_eq_self (h : r.lookahead = none) : r.rewound = r := by
  obtain ⟨cursor, lookahead, comments, lineBreak⟩ := r
  subst h
  rfl

/-- Looking ahead is reading on from the front. -/
theorem peek_eq_fill (hr : r.Sound) (mode : Mode) : peek mode r = fill mode r.rewound := by
  unfold peek
  rw [get_bind]
  cases hl : r.lookahead with
  | none => rw [rewound_eq_self hl]
  | some lookahead =>
      have hrewound : r.rewound = { r with cursor := lookahead.origin, lookahead := none } := by
        simp [Reader.rewound, front, hl]
      by_cases hmode : lookahead.mode = mode
      · -- The token ahead is read once more.
        subst hmode
        obtain ⟨hstrip, htoken, hplain, hcursor⟩ := hr.lookahead _ hl
        have hread : fill lookahead.mode r.rewound = .ok lookahead.token
            (r.rewound.facing lookahead.mode lookahead.origin lookahead.token) := by
          rw [fill, fillUpTo_succ, hrewound, Cursor.skip_eq_self hstrip, htoken]
          simp [hplain]
        have hsame : r.rewound.facing lookahead.mode lookahead.origin lookahead.token = r := by
          rw [hrewound, facing, ← hcursor]
          obtain ⟨cursor, ahead, comments, lineBreak⟩ := r
          simp_all
        rw [hread, hsame]
        simp [pure, EStateM.pure]
      · simp only [hmode, if_false]
        rw [hrewound]
        rfl

/-- A look ahead ends as the reading on from the front does. -/
theorem ends_peek {post : Token → Reader → Prop} {failed : Fault → Reader → Prop} (hr : r.Sound)
    (mode : Mode) : Ends (peek mode) r post failed ↔ Ends (fill mode) r.rewound post failed :=
  ends_congr (peek_eq_fill hr mode)

end Reader

end DiagramText
