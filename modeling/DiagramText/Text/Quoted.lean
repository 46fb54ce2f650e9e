import DiagramText.Text.Basic

/-!
# Quoted texts

A quoted text stands between two equal marks; inside it the mark is written with a backslash
before it. A backslash has no escape of its own.

`Text.quotedBody?` finds the closing mark by going through what may stand in front of it, piece by
piece. This is the leftmost mark that no backslash precedes (`Text.quotedBody?_eq_findUnescaped?`).
-/

namespace DiagramText

/-- The two marks a name may be quoted with. -/
inductive QuoteMark where
  | double
  | single
deriving DecidableEq, Repr

/-- The character of a mark. -/
def QuoteMark.char : QuoteMark → Char
  | .double => '\x22'
  | .single => '\x27'

theorem QuoteMark.char_ne_backslash (mark : QuoteMark) : mark.char ≠ '\\' := by
  cases mark <;> decide

/-- The mark as a text. -/
def QuoteMark.text (mark : QuoteMark) : Text :=
  [mark.char]

/-- The mark that a character is. -/
def QuoteMark.ofChar? (c : Char) : Option QuoteMark :=
  if c = '\x22' then some .double else if c = '\x27' then some .single else none

namespace Text

/-! ## What stands between two marks -/

/-- Length of a piece of a quoted text at the front: the mark with a backslash before it, a
character that is neither of them, or a backslash with no mark behind it. -/
def quotedPiece (mark : Char) : Text → Nat
  | [] => 0
  | c :: rest =>
    if c = '\\' ∧ rest.head? = some mark then 2
    else if c ≠ mark ∧ c ≠ '\\' then 1
    else if c = '\\' ∧ rest.head? ≠ some mark then 1
    else 0

/-- Length of as many pieces as stand ahead in a row, the first of them behind `passed` characters
that belong to an earlier one. -/
def quotedPieces (mark : Char) : (passed : Nat) → Text → Nat
  | _, [] => 0
  | passed + 1, _ :: rest => quotedPieces mark passed rest + 1
  | 0, c :: rest =>
    match quotedPiece mark (c :: rest) with
    | 0 => 0
    | length + 1 => quotedPieces mark length rest + 1

/-- Length of the pieces if the mark stands behind them. None of them begins with the mark, so
fewer pieces would not reach one either. -/
def quotedBody? (mark : Char) (s : Text) : Option Nat :=
  let body := quotedPieces mark 0 s
  if s[body]? = some mark then some body else none

/-- Any character but the mark begins a piece, and the mark is passed over behind a backslash. -/
theorem quotedPieces_cons {mark c : Char} (hc : c ≠ mark) (s : Text) :
    quotedPieces mark 0 (c :: s) =
      quotedPieces mark (if c = '\\' ∧ s.head? = some mark then 1 else 0) s + 1 := by
  rw [quotedPieces, quotedPiece]
  by_cases hescaped : c = '\\' ∧ s.head? = some mark
  · rw [if_pos hescaped, if_pos hescaped]
  · rw [if_neg hescaped, if_neg hescaped]
    by_cases hslash : c = '\\'
    · have hhead : s.head? ≠ some mark := fun hhead => hescaped ⟨hslash, hhead⟩
      rw [if_neg (fun h => h.2 hslash), if_pos ⟨hslash, hhead⟩]
    · rw [if_pos ⟨hc, hslash⟩]

/-- Behind the pieces the mark stands where it first does without a backslash before it. -/
theorem quotedBody?_eq_findUnescaped? {mark : Char} (hmark : mark ≠ '\\') (s : Text) :
    quotedBody? mark s = findUnescaped? [mark] false s := by
  -- Right behind a backslash a mark at the front is the end of a piece.
  have hpieces (escaped : Bool) :
      (let body := quotedPieces mark (if escaped = true ∧ s.head? = some mark then 1 else 0) s
        if s[body]? = some mark then some body else none) =
        findUnescaped? [mark] escaped s := by
    induction s generalizing escaped with
    | nil => simp [findUnescaped?]
    | cons c s ih =>
        have hhere := ih (c == '\\')
        simp only [beq_iff_eq] at hhere
        by_cases hc : c = mark
        · subst hc
          cases escaped with
          | true =>
              simp only [hmark, false_and, if_false] at hhere
              simp [quotedPieces, findUnescaped?, ← hhere]
          | false => simp [quotedPieces, quotedPiece, findUnescaped?, hmark]
        · simp [quotedPieces_cons hc, findUnescaped?, ← hhere, hc, Ne.symm hc]
  exact hpieces false

/-! ## Escapes -/

/-- Writes a backslash before every occurrence of the mark. -/
def escape (s mark : Text) : Text :=
  s.replace mark ('\\' :: mark)

/-- Where the mark is a single character, each character is escaped on its own. -/
theorem escape_singleton (s : Text) (mark : Char) :
    s.escape [mark] = s.flatMap fun c => if c = mark then ['\\', c] else [c] := by
  induction s with
  | nil => rfl
  | cons c rest ih =>
    by_cases h : c = mark
    · subst h
      simpa [escape, replace, substitute, substituteAfter] using ih
    · have differs : ¬ mark = c := fun same => h same.symm
      simpa [escape, replace, substitute, substituteAfter, h, differs] using ih

/-- Drops every backslash that stands before a mark, from left to right. -/
def unescape (s mark : Text) : Text :=
  s.replace ('\\' :: mark) mark

/-- The text between two marks, the marks inside it escaped. -/
def quote (s mark : Text) : Text :=
  mark ++ s.escape mark ++ mark

/-- Undoes `quote`: the first character, whatever it is, is the mark and the last is dropped. The
empty text has no mark. -/
def unquote? : Text → Option Text
  | [] => none
  | mark :: rest => some (Text.unescape rest.dropLast [mark])

end Text

end DiagramText
