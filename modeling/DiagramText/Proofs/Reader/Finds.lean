import DiagramText.Grammar.Document
import DiagramText.Proofs.Lexeme.Length
import DiagramText.Tree.Same

/-!
# What a mode finds

Looking ahead in a mode passes over blanks and comments up to a lexeme that is
no comment.  `Mode.Finds` says so of the text alone: which comments are passed,
whether one of them ends the line, which lexeme is found, and the text from it
on.  A cursor that cuts a comment after the blanks has less ahead behind it, and
what is found there is found with this comment before it (`Cursor.finds_past`).
-/

namespace DiagramText

open Grammar

/-- The item a comment becomes, without its span. -/
def Token.remark (token : Token) : Item :=
  (commentItem token).bare

/-- Whether the token is a line comment that ends with a line break. -/
def Token.endsLine (token : Token) : Bool :=
  token.kind == .comment && token.text.getLast?.any isBreak

/-- The remark of a comment depends on its kind and its text only. -/
theorem Token.remark_congr {a b : Token} (hkind : a.kind = b.kind) (htext : a.text = b.text) :
    a.remark = b.remark := by
  unfold remark commentItem
  rw [hkind, htext]
  split <;> rfl

/-- The token of a lexeme at the front of a text, without its span. -/
def Lexeme.cut (lexeme : Lexeme) (s : Text) : Token :=
  ⟨lexeme.kind, s.take lexeme.length, .nowhere⟩

namespace Mode

/-- The text without what the mode skips at its front. -/
def strip (mode : Mode) (s : Text) : Text :=
  s.dropWhile mode.skips

/-- Some scan in the mode cuts a token of this kind and text. -/
def Spells (mode : Mode) (kind : TokenKind) (text : Text) : Prop :=
  ∃ rest, mode.scan (text ++ rest) = .ok ⟨kind, text.length⟩

/-- Looking ahead in the mode passes over comments, of which one ends the line if `ends` is set,
and comes to a lexeme that is no comment and to the text from it on. -/
inductive Finds (mode : Mode) : Text → List Item → (ends : Bool) → Lexeme → Text → Prop
  | token {s : Text} {lexeme : Lexeme}
      (scanned : mode.scan (mode.strip s) = .ok lexeme)
      (plain : lexeme.kind.isComment = false) :
      Finds mode s [] false lexeme (mode.strip s)
  | comment {s t : Text} {comment lexeme : Lexeme} {remarks : List Item} {ends : Bool}
      (scanned : mode.scan (mode.strip s) = .ok comment)
      (isComment : comment.kind.isComment = true)
      (later : Finds mode ((mode.strip s).drop comment.length) remarks ends lexeme t) :
      Finds mode s ((comment.cut (mode.strip s)).remark :: remarks)
        ((comment.cut (mode.strip s)).endsLine || ends) lexeme t

/-- Whether looking ahead in the mode comes to a lexeme at all. -/
def Legible (mode : Mode) (s : Text) : Prop :=
  ∃ remarks ends lexeme t, mode.Finds s remarks ends lexeme t

theorem strip_suffix (mode : Mode) (s : Text) : mode.strip s <:+ s :=
  List.dropWhile_suffix _

@[simp] theorem strip_strip (mode : Mode) (s : Text) :
    mode.strip (mode.strip s) = mode.strip s := by
  unfold strip
  induction s with
  | nil => rfl
  | cons c s ih => by_cases hc : mode.skips c <;> simp [hc, ih]

/-- Where the mode has nothing to skip the text stays. -/
theorem strip_eq_self {mode : Mode} {s : Text} (h : s.Begins fun c => mode.skips c = false) :
    mode.strip s = s := by
  cases s with
  | nil => rfl
  | cons c s => simp [strip, Text.begins_cons.mp h]

/-- A comment is not found at the end. -/
theorem ne_nil_of_isComment {mode : Mode} {s : Text} {lexeme : Lexeme}
    (h : mode.scan s = .ok lexeme) (hcomment : lexeme.kind.isComment = true) : s ≠ [] := by
  refine ne_nil_of_scan h fun heof => ?_
  rw [heof] at hcomment
  cases hcomment

/-- A comment has a length. -/
theorem length_pos_of_isComment {mode : Mode} {s : Text} {lexeme : Lexeme}
    (h : mode.scan s = .ok lexeme) (hcomment : lexeme.kind.isComment = true) :
    0 < lexeme.length :=
  (scan_bounds h).2.2.mpr (ne_nil_of_isComment h hcomment)

/-- Only one thing is found. -/
theorem Finds.unique {mode : Mode} {s t t' : Text} {remarks remarks' : List Item}
    {ends ends' : Bool} {lexeme lexeme' : Lexeme} (h : mode.Finds s remarks ends lexeme t)
    (h' : mode.Finds s remarks' ends' lexeme' t') :
    remarks = remarks' ∧ ends = ends' ∧ lexeme = lexeme' ∧ t = t' := by
  induction h generalizing remarks' ends' with
  | token scanned plain =>
      cases h' with
      | token scanned' _ => simp_all
      | comment scanned' isComment' _ => simp_all
  | comment scanned isComment _ ih =>
      cases h' with
      | token scanned' plain' => simp_all
      | comment scanned' _ later' =>
          obtain rfl : _ = _ := Except.ok.inj (scanned.symm.trans scanned')
          obtain ⟨rfl, rfl, rfl, rfl⟩ := ih later'
          exact ⟨rfl, rfl, rfl, rfl⟩

/-- The lexeme after the blanks is found, if it is no comment. -/
theorem Finds.of_strip {mode : Mode} {s t : Text} {lexeme : Lexeme} (hstrip : mode.strip s = t)
    (hscan : mode.scan t = .ok lexeme) (hplain : lexeme.kind.isComment = false) :
    mode.Finds s [] false lexeme t := by
  obtain rfl := hstrip
  exact .token hscan hplain

/-- What is found is found again right where it stands. -/
theorem Finds.settled {mode : Mode} {s t : Text} {remarks : List Item} {ends : Bool}
    {lexeme : Lexeme} (h : mode.Finds s remarks ends lexeme t) :
    mode.Finds t [] false lexeme t ∧ mode.strip t = t ∧ mode.scan t = .ok lexeme ∧
      lexeme.kind.isComment = false := by
  induction h with
  | @token s lexeme scanned plain =>
      refine ⟨?_, strip_strip mode s, scanned, plain⟩
      exact .of_strip (strip_strip mode s) scanned plain
  | comment _ _ _ ih => exact ih

/-- Where anything is found something is cut after the blanks. -/
theorem Finds.scan_strip {mode : Mode} {s t : Text} {remarks : List Item} {ends : Bool}
    {lexeme : Lexeme} (h : mode.Finds s remarks ends lexeme t) :
    ∃ found, mode.scan (mode.strip s) = .ok found := by
  cases h with
  | token scanned _ => exact ⟨_, scanned⟩
  | comment scanned _ _ => exact ⟨_, scanned⟩

/-- What is found at all is found behind a comment. -/
theorem Legible.behind {mode : Mode} {s : Text} {comment : Lexeme} (h : mode.Legible s)
    (scanned : mode.scan (mode.strip s) = .ok comment) (isComment : comment.kind.isComment = true) :
    mode.Legible ((mode.strip s).drop comment.length) := by
  obtain ⟨remarks, ends, lexeme, t, hfinds⟩ := h
  cases hfinds with
  | token scanned' plain =>
      obtain rfl := Except.ok.inj (scanned.symm.trans scanned')
      exact absurd isComment (Bool.eq_false_iff.mp plain)
  | comment scanned' _ later =>
      obtain rfl := Except.ok.inj (scanned.symm.trans scanned')
      exact ⟨_, _, _, _, later⟩

/-- What is found stands at the end of the text. -/
theorem Finds.suffix {mode : Mode} {s t : Text} {remarks : List Item} {ends : Bool}
    {lexeme : Lexeme} (h : mode.Finds s remarks ends lexeme t) : t <:+ s := by
  induction h with
  | token => exact strip_suffix mode _
  | comment _ _ _ ih => exact ih.trans ((List.drop_suffix _ _).trans (strip_suffix mode _))

/-- Nothing is found after the end of a text but its end. -/
theorem finds_nil {mode : Mode} : mode.Finds [] [] false ⟨.eof, 0⟩ [] :=
  Finds.token (s := []) rfl rfl

/-- What a scan finds is spelled as the mode has it. -/
theorem spells_of_scan {mode : Mode} {s : Text} {lexeme : Lexeme}
    (h : mode.scan s = .ok lexeme) : mode.Spells lexeme.kind (s.take lexeme.length) := by
  refine ⟨s.drop lexeme.length, ?_⟩
  rw [List.take_append_drop, List.length_take_of_le (scan_bounds h).1]
  exact h

end Mode

/-- Whether the token is a comment as some mode reads it. -/
def Token.IsComment (token : Token) : Prop :=
  token.kind.isComment = true ∧ ∃ mode : Mode, mode.Spells token.kind token.text

namespace Cursor

@[simp] theorem skip_rest (mode : Mode) (cursor : Cursor) :
    (cursor.skip mode).rest = mode.strip cursor.rest :=
  Text.drop_run _ _

@[simp] theorem advance_rest (cursor : Cursor) (count : Nat) :
    (cursor.advance count).rest = cursor.rest.drop count := rfl

/-- Where the mode has nothing to skip the cursor stays. -/
theorem skip_eq_self {mode : Mode} {cursor : Cursor} (h : mode.strip cursor.rest = cursor.rest) :
    cursor.skip mode = cursor := by
  have hrun : Text.run mode.skips cursor.rest = 0 := by
    have hlength := congrArg List.length (List.takeWhile_append_dropWhile (p := mode.skips) (l := cursor.rest))
    rw [List.length_append] at hlength
    have hstrip := congrArg List.length h
    rw [Mode.strip] at hstrip
    rw [Text.run]
    omega
  rw [skip, hrun]
  rfl

/-- A token is the scanned lexeme with its text and span. -/
theorem token_eq_ok {mode : Mode} {cursor : Cursor} {token : Token} :
    cursor.token mode = .ok token ↔
      ∃ lexeme, mode.scan cursor.rest = .ok lexeme ∧
        token = ⟨lexeme.kind, cursor.rest.take lexeme.length, cursor.spanOf lexeme.length⟩ := by
  unfold Cursor.token
  cases mode.scan cursor.rest <;> simp [eq_comm]

/-- A token has the kind and the length of the lexeme that is scanned, and stands at the cursor. -/
theorem scan_of_token {mode : Mode} {cursor : Cursor} {token : Token}
    (h : cursor.token mode = .ok token) :
    mode.scan cursor.rest = .ok ⟨token.kind, token.text.length⟩ ∧
      token.text = cursor.rest.take token.text.length ∧
      token.span = cursor.spanOf token.text.length := by
  obtain ⟨lexeme, hscan, rfl⟩ := token_eq_ok.mp h
  have hlength := List.length_take_of_le (Mode.scan_bounds hscan).1
  simp only [hlength, and_true]
  exact hscan

/-! ## After the blanks -/

section

variable {mode : Mode} {cursor : Cursor} {token : Token} {remarks : List Item} {ends : Bool}
  {lexeme : Lexeme} {t : Text}

/-- Where no token can be cut nothing is found. -/
theorem not_legible_of_error {error : LexError} (h : (cursor.skip mode).token mode = .error error) :
    ¬ mode.Legible cursor.rest := by
  rintro ⟨remarks, ends, lexeme, t, hfinds⟩
  obtain ⟨found, hscan⟩ := hfinds.scan_strip
  rw [← skip_rest] at hscan
  cases h.symm.trans (token_eq_ok.mpr ⟨found, hscan, rfl⟩)

variable (htoken : (cursor.skip mode).token mode = .ok token)

include htoken

/-- A token that is no comment is found. -/
theorem finds_facing (hplain : token.kind.isComment = false) :
    mode.Finds cursor.rest [] false ⟨token.kind, token.text.length⟩ (cursor.skip mode).rest := by
  have hscan := (scan_of_token htoken).1
  rw [skip_rest] at hscan ⊢
  exact .token hscan hplain

/-- What is found behind a comment is found with the comment before it. -/
theorem finds_past (hcomment : token.kind.isComment = true)
    (later : mode.Finds ((cursor.skip mode).advance token.text.length).rest remarks ends lexeme t) :
    mode.Finds cursor.rest (token.remark :: remarks) (token.endsLine || ends) lexeme t := by
  obtain ⟨hscan, htext, _⟩ := scan_of_token htoken
  rw [advance_rest] at later
  rw [skip_rest] at hscan htext later
  have hremark : token.remark = (Lexeme.cut ⟨token.kind, token.text.length⟩ (mode.strip cursor.rest)).remark :=
    Token.remark_congr rfl htext
  have hends : token.endsLine =
      (Lexeme.cut ⟨token.kind, token.text.length⟩ (mode.strip cursor.rest)).endsLine := by
    rw [Token.endsLine, Token.endsLine, Lexeme.cut, ← htext]
  rw [hremark, hends]
  exact .comment hscan hcomment later

/-- What is found at all is found behind a comment. -/
theorem legible_past (hcomment : token.kind.isComment = true) (h : mode.Legible cursor.rest) :
    mode.Legible ((cursor.skip mode).advance token.text.length).rest := by
  have hscan := (scan_of_token htoken).1
  rw [skip_rest] at hscan
  rw [advance_rest, skip_rest]
  exact h.behind hscan hcomment

/-- Behind a comment less is ahead. -/
theorem length_rest_past_lt (hcomment : token.kind.isComment = true) :
    ((cursor.skip mode).advance token.text.length).rest.length < cursor.rest.length := by
  have hscan := (scan_of_token htoken).1
  have hpos : 0 < token.text.length := Mode.length_pos_of_isComment hscan hcomment
  have hle : token.text.length ≤ (cursor.skip mode).rest.length := (Mode.scan_bounds hscan).1
  have hblanks := (mode.strip_suffix cursor.rest).length_le
  rw [skip_rest] at hle
  rw [advance_rest, skip_rest, List.length_drop]
  omega

end

end Cursor

/-- A token is spelled as the mode has it. -/
theorem spells_of_token {cursor : Cursor} {mode : Mode} {token : Token}
    (h : cursor.token mode = .ok token) : mode.Spells token.kind token.text := by
  obtain ⟨lexeme, hscan, rfl⟩ := Cursor.token_eq_ok.mp h
  exact Mode.spells_of_scan hscan

/-- A token of a comment's kind is a comment. -/
theorem isComment_of_token {cursor : Cursor} {mode : Mode} {token : Token}
    (h : cursor.token mode = .ok token) (hkind : token.kind.isComment = true) : token.IsComment :=
  ⟨hkind, mode, spells_of_token h⟩

end DiagramText
