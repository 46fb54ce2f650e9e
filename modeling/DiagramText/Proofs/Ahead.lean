import DiagramText.Proofs.Lexeme.Offset
import DiagramText.Proofs.Reader.Relook
import DiagramText.Proofs.Tokens
import DiagramText.Proofs.Text.LineTable

/-!
# The text ahead decides

What is read next at an offset of a source depends on the text ahead only.  Behind
another text the same token is read, or the same fault, with a span that begins and
ends as much further on; the line and column of its start are counted in the longer
source.  Nothing is kept from one reading to the next, so a cursor that is put back
to the start of a token reads this token again (`Cursor.next_moved`).

None of this rests on how a cursor keeps its text: the same is read by looking into
the whole source at offsets, where all scanners of the mode are asked and ranks
decide among them (`tokenAt`, `Cursor.next_eq_tokenAt`).
-/

namespace DiagramText

/-- What is read next when the cursor is put to an offset, or to the nearest one that the source has,
and where the cursor stands then.  The scanners look into the whole source, and lines and columns come
from its table. -/
def tokenAt (mode : Mode) (source : Text) (offset : Int) : Except LexError Token × Nat :=
  let place := min offset.toNat source.length
  let start := place + Text.run mode.skips (source.drop place)
  let span (length : Nat) : Span := .ofTable source.lineStarts start (start + length : Nat)
  match source[start]? with
  | none => (.ok ⟨.eof, [], span 0⟩, start)
  | some c =>
    match Lexeme.pick none (mode.scanners.map fun scanner => scanner source start) with
    | .error fault => (.error ⟨fault, span fault.extent⟩, start)
    | .ok none => (.error ⟨.unexpectedCharacter c, span 1⟩, start)
    | .ok (some lexeme) =>
      (.ok ⟨lexeme.kind, source.slice start (start + lexeme.length : Nat), span lexeme.length⟩,
        start + lexeme.length)

/-! ## What moves -/

variable {before ahead : Text}

/-- The span begins and ends as much further on as the text before is long, and each of the two spans
has the line and column of its start in its own source. -/
structure Span.Moved (before ahead : Text) (span moved : Span) : Prop where
  start : moved.start = span.start + before.length
  stop : moved.stop = span.stop + before.length
  here : span = .ofOffsets ahead span.start.toNat span.stop
  there : moved = .ofOffsets (before ++ ahead) moved.start.toNat moved.stop

/-- The same token behind the text before. -/
structure Token.Moved (before ahead : Text) (token moved : Token) : Prop where
  kind : moved.kind = token.kind
  text : moved.text = token.text
  span : token.span.Moved before ahead moved.span

/-- The same fault behind the text before, and so the same message. -/
structure LexError.Moved (before ahead : Text) (error moved : LexError) : Prop where
  fault : moved.fault = error.fault
  message : moved.fault.message = error.fault.message
  span : error.span.Moved before ahead moved.span

/-- The same is read behind the text before, and the cursor comes to the same text ahead. -/
inductive Cursor.Moved (before ahead : Text) :
    (reading moved : Except LexError Token × Cursor) → Prop
  | token {token moved : Token} {stop : Nat} (h : token.Moved before ahead moved) :
      Moved before ahead (.ok token, atOffset ahead stop)
        (.ok moved, atOffset (before ++ ahead) (before.length + stop : Nat))
  | error {error moved : LexError} {stop : Nat} (h : error.Moved before ahead moved) :
      Moved before ahead (.error error, atOffset ahead stop)
        (.error moved, atOffset (before ++ ahead) (before.length + stop : Nat))

/-- With a text in front a span is moved by the length of that text. -/
theorem Span.moved (before ahead : Text) (start stop : Nat) :
    Moved before ahead (ofOffsets ahead start stop)
      (ofOffsets (before ++ ahead) (before.length + start : Nat) (before.length + stop : Nat)) := by
  constructor <;> simp only [start_ofOffsets, stop_ofOffsets, Int.toNat_natCast] <;> omega

namespace Cursor

variable {mode : Mode} {source : Text}

/-- Putting the cursor to an offset of the source. -/
theorem atOffset_eq {offset : Nat} (h : offset ≤ source.length) :
    atOffset source offset = ⟨source.drop offset, .ofOffset source offset⟩ := by
  rw [atOffset, Int.toNat_natCast, Nat.min_eq_left h]
  rfl

/-- An offset outside of the source stands for the nearest one inside. -/
theorem atOffset_clamp (source : Text) (offset : Int) :
    atOffset source offset = atOffset source (min offset.toNat source.length : Nat) := by
  rw [atOffset, atOffset, Int.toNat_natCast, Nat.min_assoc, Nat.min_self]

/-- At an offset the rest of the source is ahead. -/
theorem rest_atOffset {offset : Nat} (h : offset ≤ source.length) :
    (atOffset source offset).rest = source.drop offset := by
  rw [atOffset_eq h]

/-- A cursor at an offset is moved by moving the offset. -/
theorem advance_atOffset {offset count : Nat} (h : offset + count ≤ source.length) :
    (atOffset source offset).advance count = atOffset source (offset + count : Nat) := by
  rw [atOffset_eq h, atOffset_eq (Nat.le_of_add_right_le h), advance, List.drop_drop,
    Position.ofOffset, Position.advance_advance]
  rfl

/-- What is read at a place where nothing is skipped, when this was scanned there. -/
def readAt (source : Text) (start : Nat) : Except LexFault Lexeme → Except LexError Token × Cursor
  | .ok lexeme =>
    (.ok ⟨lexeme.kind, (source.drop start).take lexeme.length,
      .ofOffsets source start (start + lexeme.length : Nat)⟩,
     atOffset source (start + lexeme.length : Nat))
  | .error fault =>
    (.error ⟨fault, .ofOffsets source start (start + fault.extent : Nat)⟩, atOffset source start)

/-- Skipping blanks moves the offset by as many. -/
theorem skip_atOffset (mode : Mode) {offset : Nat} (h : offset ≤ source.length) :
    (atOffset source offset).skip mode =
      atOffset source (offset + Text.run mode.skips (source.drop offset) : Nat) := by
  have hrun := Text.run_le_length mode.skips (source.drop offset)
  rw [List.length_drop] at hrun
  rw [skip, rest_atOffset h, advance_atOffset (by omega)]

/-- What is read next is what the mode scans behind all that it skips. -/
theorem next_atOffset (mode : Mode) {offset start : Nat} (h : offset ≤ source.length)
    (hstart : offset + Text.run mode.skips (source.drop offset) = start) :
    (atOffset source offset).next mode = readAt source start (mode.scan (source.drop start)) := by
  have hrun := Text.run_le_length mode.skips (source.drop offset)
  rw [List.length_drop] at hrun
  have hle : start ≤ source.length := by omega
  have hskip : (atOffset source offset).skip mode = atOffset source start := by
    rw [skip_atOffset mode h, hstart]
  have hspan (count : Nat) : (atOffset source start).spanOf count =
      .ofOffsets source start (start + count : Nat) := by
    rw [spanOf, atOffset_eq hle, Position.offset_ofOffset, Span.ofOffsets]
    rfl
  simp only [next, hskip, token, rest_atOffset hle, hspan]
  cases hscan : mode.scan (source.drop start) with
  | error fault => rfl
  | ok lexeme =>
      have hlength := (Mode.scan_bounds hscan).1
      have hafter : (atOffset source start).advance lexeme.length =
          atOffset source (start + lexeme.length : Nat) := by
        rw [List.length_drop] at hlength
        exact advance_atOffset (by omega)
      simp only [readAt, List.length_take_of_le hlength, hafter]

/-- Behind a text in front the same is left. -/
theorem drop_behind (before ahead : Text) (start : Nat) :
    (before ++ ahead).drop (before.length + start) = ahead.drop start := by
  rw [← List.drop_drop, List.drop_left]

/-- What was scanned is read behind another text as it is at the front. -/
theorem moved_readAt (before ahead : Text) (start : Nat) (scanned : Except LexFault Lexeme) :
    Moved before ahead (readAt ahead start scanned)
      (readAt (before ++ ahead) (before.length + start) scanned) := by
  cases scanned with
  | error fault =>
      have hspan := Span.moved before ahead start (start + fault.extent)
      rw [← Nat.add_assoc] at hspan
      exact .error ⟨rfl, rfl, hspan⟩
  | ok lexeme =>
      have hspan := Span.moved before ahead start (start + lexeme.length)
      simp only [readAt, drop_behind, Nat.add_assoc]
      exact .token ⟨rfl, rfl, hspan⟩

/-- Reading at an offset gives the token and the offset behind it. -/
theorem next_eq_tokenAt (mode : Mode) (source : Text) (offset : Int) :
    (atOffset source offset).next mode =
      ((tokenAt mode source offset).1, atOffset source (tokenAt mode source offset).2) := by
  have hplace : min offset.toNat source.length ≤ source.length := Nat.min_le_right _ _
  rw [atOffset_clamp, next_atOffset mode hplace rfl]
  simp only [tokenAt, Span.ofTable_lineStarts, Mode.pick_scanners]
  generalize min offset.toNat source.length +
    Text.run mode.skips (source.drop (min offset.toNat source.length)) = start
  cases hrest : source.drop start with
  | nil =>
      have hend : source[start]? = none := by rw [← List.head?_drop, hrest, List.head?_nil]
      simp only [hend, Mode.scan_nil, readAt, Nat.add_zero, List.take_zero]
  | cons c rest =>
      have hc := (Text.of_drop_eq_cons hrest).1
      have hslice (count : Nat) : source.slice start (start + count : Nat) =
          (source.drop start).take count := by
        rw [Text.slice_natCast, List.drop_take, Nat.add_sub_cancel_left]
      simp only [hc, Mode.scan]
      cases Recogniser.firstOf mode.recognisers (c :: rest) with
      | error fault => rfl
      | ok found =>
          cases found with
          | none => rfl
          | some lexeme => simp only [readAt, hslice]

/-- Blanks that are skipped first are not skipped again. -/
theorem next_skip (mode : Mode) (cursor : Cursor) :
    (cursor.skip mode).next mode = cursor.next mode := by
  simp only [next, skip_skip]

/-- A token begins behind all that is skipped, so it is read again from there. -/
theorem next_start {offset : Int} {token : Token} {after : Cursor}
    (h : (atOffset source offset).next mode = (.ok token, after)) :
    (atOffset source token.span.start).next mode = (.ok token, after) := by
  have hplace : min offset.toNat source.length ≤ source.length := Nat.min_le_right _ _
  rw [atOffset_clamp] at h
  have hread := h
  rw [next_atOffset mode hplace rfl] at hread
  generalize mode.scan _ = scanned at hread
  cases scanned with
  | error fault => cases hread
  | ok lexeme =>
      simp only [readAt, Prod.mk.injEq, Except.ok.injEq] at hread
      obtain ⟨rfl, _⟩ := hread
      rw [Span.start_ofOffsets, ← skip_atOffset mode hplace, next_skip]
      exact h

/-- **The text ahead decides.**  Behind any text the same is read as at the front, token or fault, only
further on.  A cursor that is put back to the start of a token reads the same token, and then stands at
the same place.  All this is what the scanners find that look into the whole source. -/
theorem next_moved (mode : Mode) :
    (∀ before ahead : Text, Moved before ahead ((ofText ahead).next mode)
      ((atOffset (before ++ ahead) before.length).next mode)) ∧
    (∀ (source : Text) (offset : Int) (token : Token) (after : Cursor),
      (atOffset source offset).next mode = (.ok token, after) →
        (atOffset source token.span.start).next mode = (.ok token, after)) ∧
    ∀ (source : Text) (offset : Int), (atOffset source offset).next mode =
      ((tokenAt mode source offset).1, atOffset source (tokenAt mode source offset).2) := by
  refine ⟨?_, fun source offset token after h => next_start h, next_eq_tokenAt mode⟩
  intro before ahead
  have hplace : before.length ≤ (before ++ ahead).length := by simp
  have hfront : (ofText ahead).next mode = readAt ahead (Text.run mode.skips ahead) _ :=
    next_atOffset mode (Nat.zero_le _) (Nat.zero_add _)
  have hbehind := next_atOffset mode hplace rfl
  rw [List.drop_left, drop_behind] at hbehind
  rw [hfront, hbehind]
  exact moved_readAt before ahead _ _

/-- The backslash keeps the fence behind it from ending the comment, also when the cursor is put back
to where the comment begins. -/
theorem next_moved_fence : ∃ token after,
    (atOffset [' ', '\x22', '\x22', '\x22', '\\', '\x22', '\x22', '\x22', '\x22'] 0).next
        .declaration = (.ok token, after) ∧
      token.kind = .blockComment ∧ token.span = ⟨1, 9, 1, 2⟩ ∧
      (atOffset [' ', '\x22', '\x22', '\x22', '\\', '\x22', '\x22', '\x22', '\x22'] 1).next
        .declaration = (.ok token, after) := by
  have hfirst : (atOffset [' ', '\x22', '\x22', '\x22', '\\', '\x22', '\x22', '\x22', '\x22'] 0).next
      .declaration = (.ok ⟨.blockComment, _, ⟨1, 9, 1, 2⟩⟩, _) := rfl
  exact ⟨_, _, hfirst, rfl, rfl, (next_moved .declaration).2.1 _ 0 _ _ hfirst⟩

end Cursor

end DiagramText
