import DiagramText.Proofs.Lexeme.Newline
import DiagramText.Proofs.Reader.Progress

/-!
# Looking ahead over the end of a text

A text may go on with a line break and further text.  What a mode finds before
the end it still finds then (`Mode.Finds.append`).  Where it finds the end, in
the modes of the line, it either finds the line break, or it passes it inside a
line comment and goes on in the further text, on a line of its own
(`Mode.Finds.append_eof`).

The two modes of the line pass the same comments, so that they stop at the same
place or not at all (`Mode.Finds.transfer`).  So it does not matter how often and
in which of them one looks on (`Mode.Passes`).
-/

namespace DiagramText

namespace Mode

theorem IsLine.strip_newline {mode : Mode} (h : mode.IsLine) (t : Text) :
    mode.strip ('\n' :: t) = '\n' :: t :=
  strip_eq_self (Text.begins_cons.mpr ((h.skips '\n').trans (by decide)))

/-- A closing brace is found where one stands, in both modes of the line. -/
theorem finds_brace {mode : Mode} (hmode : mode.IsLine) (t : Text) :
    mode.Finds ('\x7d' :: t) [] false ⟨.punct, 1⟩ ('\x7d' :: t) := by
  have hstrip : mode.strip ('\x7d' :: t) = '\x7d' :: t :=
    strip_eq_self (Text.begins_cons.mpr ((hmode.skips _).trans (by decide)))
  have hscan : mode.scan ('\x7d' :: t) = .ok ⟨.punct, 1⟩ := by
    rcases hmode with rfl | rfl <;> rfl
  exact .of_strip hstrip hscan rfl

/-- Where something is left after the blanks, what follows does not matter to them. -/
theorem strip_append_of_ne_nil {mode : Mode} {s : Text} (w : Text) (h : mode.strip s ≠ []) :
    mode.strip (s ++ w) = mode.strip s ++ w := by
  unfold strip at h ⊢
  induction s with
  | nil => exact absurd rfl h
  | cons c s ih =>
      simp only [List.cons_append, List.dropWhile_cons] at h ⊢
      split
      · next hc =>
          rw [if_pos hc] at h
          exact ih h
      · rfl

theorem strip_append_of_eq_nil {mode : Mode} {s : Text} (w : Text) (h : mode.strip s = []) :
    mode.strip (s ++ w) = mode.strip w := by
  unfold strip at h ⊢
  induction s with
  | nil => rfl
  | cons c s ih =>
      simp only [List.cons_append, List.dropWhile_cons] at h ⊢
      split
      · next hc =>
          rw [if_pos hc] at h
          exact ih h
      · next hc =>
          rw [if_neg hc] at h
          cases h

/-- A token that lies within a text is cut from a longer one in the same way. -/
theorem cut_append {s : Text} {lexeme : Lexeme} (w : Text) (h : lexeme.length ≤ s.length) :
    lexeme.cut (s ++ w) = lexeme.cut s := by
  unfold Lexeme.cut
  rw [List.take_append_of_le_length h]

/-- A lexeme that is found before the end is found when the text goes on with a line break.  Only a
carriage return at the end takes the line feed in. -/
theorem Finds.append {mode : Mode} {s u : Text} {remarks : List Item} {ends : Bool}
    {lexeme : Lexeme} (t : Text) (h : mode.Finds s remarks ends lexeme u)
    (hkind : lexeme.kind ≠ .eof) :
    mode.Finds (s ++ '\n' :: t) remarks ends lexeme (u ++ '\n' :: t) ∨
      (u = ['\r'] ∧ lexeme = ⟨.terminator, 1⟩ ∧
        mode.Finds (s ++ '\n' :: t) remarks ends ⟨.terminator, 2⟩ (u ++ '\n' :: t)) := by
  induction h with
  | @token s lexeme scanned plain =>
      have hs : mode.strip s ≠ [] := ne_nil_of_scan scanned hkind
      have hstrip := strip_append_of_ne_nil ('\n' :: t) hs
      rcases scan_newline t hs scanned with hsame | ⟨lexeme', htakes, hscan⟩
      · left
        rw [← hstrip] at hsame ⊢
        exact .token hsame plain
      · right
        cases htakes with
        | terminator hreturn =>
            refine ⟨hreturn, rfl, ?_⟩
            rw [← hstrip] at hscan ⊢
            exact .token hscan rfl
        | comment => cases plain
  | @comment s u comment lexeme remarks ends scanned isComment later ih =>
      have hs : mode.strip s ≠ [] := ne_nil_of_isComment scanned isComment
      have hstrip := strip_append_of_ne_nil ('\n' :: t) hs
      have hle := (scan_bounds scanned).1
      have hdrop := @List.drop_append_of_le_length _ _ ('\n' :: t) _ hle
      rcases scan_newline t hs scanned with hsame | ⟨lexeme', htakes, hscan⟩
      · have hcut := cut_append ('\n' :: t) hle
        rw [← hstrip] at hsame hdrop hcut
        rw [← hcut]
        rcases ih hkind with hlater | ⟨hreturn, hterminator, hlater⟩
        · exact .inl (.comment hsame isComment (hdrop ▸ hlater))
        · exact .inr ⟨hreturn, hterminator, .comment hsame isComment (hdrop ▸ hlater)⟩
      · exfalso
        cases htakes with
        | terminator => cases isComment
        | comment =>
            rw [List.drop_length] at later
            exact hkind (congrArg Lexeme.kind (later.unique finds_nil).2.2.1)

/-- In a mode of the line a line break is a terminator. -/
theorem IsLine.scan_newline {mode : Mode} (h : mode.IsLine) (t : Text) :
    mode.scan ('\n' :: t) = .ok ⟨.terminator, 1⟩ := by
  rcases h with rfl | rfl <;> rfl

/-- A line comment at the end of a text stays the same remark when it takes a line feed in, and
then ends the line. -/
theorem remark_cut_newline (s t : Text) :
    ((⟨.comment, s.length + 1⟩ : Lexeme).cut (s ++ '\n' :: t)).remark =
        ((⟨.comment, s.length⟩ : Lexeme).cut s).remark ∧
      ((⟨.comment, s.length + 1⟩ : Lexeme).cut (s ++ '\n' :: t)).endsLine = true := by
  have htake : (s ++ '\n' :: t).take (s.length + 1) = s ++ ['\n'] := by
    rw [List.take_length_add_append]
    rfl
  constructor
  · simp only [Lexeme.cut, htake, List.take_length, Token.remark, Grammar.commentItem, if_true,
      Item.bare]
    cases s with
    | nil => rfl
    | cons c s =>
        simp only [List.cons_append, List.drop_succ_cons, List.drop_zero]
        have hbreak : Text.Begins (fun c => (!isBreak c) = false) ['\n'] :=
          Text.begins_cons.mpr (by decide)
        rw [Text.takeWhile_append hbreak]
  · simp [Lexeme.cut, htake, Token.endsLine, isBreak]

/-- Where the end is found in a mode of the line, and the text goes on with a line break, the line
break is found; or the last comment takes it in, and the mode finds what it finds in the text
after it, on a line of its own. -/
theorem Finds.append_eof {mode : Mode} {s u : Text} {remarks : List Item} {ends : Bool}
    {lexeme : Lexeme} (t : Text) (hmode : mode.IsLine)
    (h : mode.Finds s remarks ends lexeme u) (hkind : lexeme.kind = .eof) :
    mode.Finds (s ++ '\n' :: t) remarks ends ⟨.terminator, 1⟩ ('\n' :: t) ∨
      ((∀ later e l v, mode.Finds t later e l v →
          mode.Finds (s ++ '\n' :: t) (remarks ++ later) true l v) ∧
        (mode.Legible (s ++ '\n' :: t) → mode.Legible t)) := by
  induction h with
  | @token s lexeme scanned plain =>
      left
      have hs : mode.strip s = [] := ((scan_bounds scanned).2.1).mp hkind
      have hstrip := strip_append_of_eq_nil ('\n' :: t) hs
      rw [hmode.strip_newline] at hstrip
      exact .of_strip hstrip (hmode.scan_newline t) rfl
  | @comment s u comment lexeme remarks ends scanned isComment later ih =>
      have hs : mode.strip s ≠ [] := ne_nil_of_isComment scanned isComment
      have hstrip := strip_append_of_ne_nil ('\n' :: t) hs
      have hle := (scan_bounds scanned).1
      rcases Mode.scan_newline t hs scanned with hsame | ⟨lexeme', htakes, hscan⟩
      · have hdrop := @List.drop_append_of_le_length _ _ ('\n' :: t) _ hle
        have hcut := cut_append ('\n' :: t) hle
        rw [← hstrip] at hsame hdrop hcut
        rw [← hcut]
        rcases ih hkind with hbreak | ⟨hfinds, hlegible⟩
        · exact .inl (.comment hsame isComment (hdrop ▸ hbreak))
        · right
          constructor
          · intro later e l v hv
            rw [List.cons_append, ← Bool.or_true]
            exact .comment hsame isComment (hdrop ▸ hfinds later e l v hv)
          · intro hwhole
            exact hlegible (hdrop ▸ hwhole.behind hsame isComment)
      · right
        cases htakes with
        | terminator => cases isComment
        | comment =>
            rw [List.drop_length] at later
            obtain ⟨rfl, rfl, rfl, rfl⟩ := later.unique finds_nil
            have hdrop : (mode.strip s ++ '\n' :: t).drop ((mode.strip s).length + 1) = t := by
              rw [List.drop_length_add_append]
              rfl
            obtain ⟨hremark, hends⟩ := remark_cut_newline (mode.strip s) t
            rw [← hstrip] at hscan hdrop hremark hends
            constructor
            · intro later e l v hv
              have := Finds.comment hscan rfl (hdrop.symm ▸ hv)
              rw [hremark, hends] at this
              simpa using this
            · intro hwhole
              exact hdrop ▸ hwhole.behind hscan rfl

theorem IsLine.strip_eq {mode mode' : Mode} (h : mode.IsLine) (h' : mode'.IsLine) (s : Text) :
    mode.strip s = mode'.strip s := by
  unfold strip
  rw [show mode.skips = mode'.skips from funext fun c => (h.skips c).trans (h'.skips c).symm]

/-- The modes of the line pass the same comments.  Where the one stops the other stops if it can
cut a token there. -/
theorem Finds.transfer {mode mode' : Mode} {s u : Text} {remarks : List Item} {ends : Bool}
    {lexeme lexeme' : Lexeme} (hmode : mode.IsLine) (hmode' : mode'.IsLine)
    (h : mode.Finds s remarks ends lexeme u) (hscan : mode'.scan u = .ok lexeme') :
    mode'.Finds s remarks ends lexeme' u := by
  induction h with
  | @token s lexeme scanned plain =>
      have hplain : lexeme'.kind.isComment = false := by
        refine Bool.eq_false_iff.mpr fun hcomment => ?_
        rw [hmode'.scan_comment hmode hscan hcomment] at scanned
        rw [← Except.ok.inj scanned, hcomment] at plain
        cases plain
      rw [hmode.strip_eq hmode'] at hscan ⊢
      exact .token hscan hplain
  | @comment s u comment lexeme remarks ends scanned isComment later ih =>
      have hsame := hmode.scan_comment hmode' scanned isComment
      rw [hmode.strip_eq hmode'] at hsame ih ⊢
      exact .comment hsame isComment (ih hscan)

/-- Where one mode of the line stops the other stops as well, if it comes to a token at all. -/
theorem Finds.scan_of_legible {mode mode' : Mode} {s u : Text} {remarks : List Item}
    {ends : Bool} {lexeme : Lexeme} (hmode : mode.IsLine) (hmode' : mode'.IsLine)
    (h : mode.Finds s remarks ends lexeme u) (hlegible : mode'.Legible s) :
    ∃ lexeme', mode'.scan u = .ok lexeme' ∧ lexeme'.kind.isComment = false := by
  induction h with
  | @token s lexeme scanned plain =>
      obtain ⟨_, _, found, _, hfinds⟩ := hlegible
      rw [hmode.strip_eq hmode'] at scanned ⊢
      cases hfinds with
      | token scanned' plain' => exact ⟨found, scanned', plain'⟩
      | comment scanned' isComment' _ =>
          rw [hmode'.scan_comment hmode scanned' isComment'] at scanned
          rw [← Except.ok.inj scanned, isComment'] at plain
          cases plain
  | @comment s u comment lexeme remarks ends scanned isComment later ih =>
      refine ih ?_
      have hsame := hmode.scan_comment hmode' scanned isComment
      rw [hmode.strip_eq hmode'] at hsame ⊢
      exact hlegible.behind hsame isComment

/-- Looking on from the one text in a mode of the line comes to the other, past comments only, or it
is the same text. -/
def Passes (s t : Text) : Prop :=
  t = s ∨ ∃ (mode : Mode) (remarks : List Item) (ends : Bool) (lexeme : Lexeme),
    mode.IsLine ∧ mode.Finds s remarks ends lexeme t

namespace Passes

variable {s t u : Text}

theorem refl (s : Text) : Passes s s :=
  .inl rfl

/-- Where a mode of the line has stopped, looking on in one does not move. -/
theorem finds {mode : Mode} {remarks : List Item} {ends : Bool} {lexeme : Lexeme} (h : Passes s t)
    (hmode : mode.IsLine) (hfinds : mode.Finds t remarks ends lexeme u) : Passes s u := by
  rcases h with rfl | ⟨mode', remarks', ends', lexeme', hmode', hfinds'⟩
  · exact .inr ⟨mode, remarks, ends, lexeme, hmode, hfinds⟩
  · obtain ⟨_, hstrip, hscan, hplain⟩ := hfinds'.settled
    have hsame : mode.strip t = t := (hmode.strip_eq hmode' t).trans hstrip
    cases hfinds with
    | token scanned plain =>
        rw [hsame]
        exact .inr ⟨mode', remarks', ends', lexeme', hmode', hfinds'⟩
    | comment scanned isComment later =>
        -- The other mode would have passed this comment.
        rw [hsame] at scanned
        rw [hmode.scan_comment hmode' scanned isComment] at hscan
        rw [← Except.ok.inj hscan, isComment] at hplain
        cases hplain

/-- Where it comes to the end, the mode of declarations finds the end. -/
theorem finds_eof (h : Passes s []) :
    ∃ remarks ends, Mode.declaration.Finds s remarks ends ⟨.eof, 0⟩ [] := by
  rcases h with rfl | ⟨mode, remarks, ends, lexeme, hmode, hfinds⟩
  · exact ⟨[], false, finds_nil⟩
  · exact ⟨remarks, ends, hfinds.transfer hmode (.inl rfl) rfl⟩

end Passes

end Mode

end DiagramText
