import DiagramText.Proofs.Reader.Crossing

/-!
# A source and a longer one

Two readers go side by side, the one through a source and the other through a
source that goes on after the end of the first: with nothing, or with a line
break and further text.  As long as the first has something ahead both see the
same (`Aligned`).  Where the first sees the end, the other sees the line break,
or it has passed it inside a comment and sees what stands in the further text
(`Crossed`).

`peek_mirrors` is the one place where a look ahead of the first reader is
matched by one of the other.  It can fail only where the further text does not
open with anything that can be read in both modes of the line (`Lost`).
-/

namespace DiagramText

namespace Reader

/-- What a source may go on with: nothing, or a line break and further text. -/
def tail : Option Text → Text
  | none => []
  | some t => '\n' :: t

/-- Whether both modes of the line come to a token in the text. -/
def Opens (t : Text) : Prop :=
  Mode.declaration.Legible t ∧ Mode.label.Legible t

/-- Whether there is a further text, and it does not open with anything. -/
def Lost (further : Option Text) : Prop :=
  ∃ t, further = some t ∧ ¬ Opens t

/-- The readers stand at the same place. -/
structure Aligned (further : Option Text) (r r' : Reader) : Prop where
  sound : r.Sound
  sound' : r'.Sound
  text : r'.text = r.text ++ tail further
  remarks : r'.remarks = r.remarks
  lineBreak : r'.lineBreak = r.lineBreak

/-- Where nothing follows the readers are at the same place of the same text. -/
theorem Aligned.symm {r r' : Reader} (h : Aligned none r r') : Aligned none r' r :=
  ⟨h.sound', h.sound, by simp [h.text, tail], h.remarks.symm, h.lineBreak.symm⟩

/-- The first reader is at the end, and the other has passed the line break inside a comment and
looks at the first token of the further text. -/
structure Crossed (t : Text) (r r' : Reader) : Prop where
  sound : r.Sound
  sound' : r'.Sound
  text : r.text = []
  lineBreak : r'.lineBreak = true
  finds : ∃ (mode : Mode) (later : List Item) (ends : Bool) (lexeme : Lexeme), mode.IsLine ∧
    mode.Finds t later ends lexeme r'.text ∧ r'.remarks = r.remarks ++ later

/-- The readers stand at the same place, or the other has looked over the end of the first. -/
inductive Reaches (further : Option Text) (r r' : Reader) : Prop
  | aligned (h : Aligned further r r')
  | crossed {t : Text} (hfurther : further = some t) (h : Crossed t r r')

variable {further : Option Text} {r r₁ r' r₁' : Reader} {mode : Mode} {token token' : Token}

/-- What the two readers have ahead after both looked: the same token; the end, or a carriage
return right before it, and the line break; or the end and a token of the further text. -/
inductive Look (further : Option Text) (token : Token) (r : Reader) (token' : Token)
    (r' : Reader) : Prop
  | same (aligned : Aligned further r r') (kind : token'.kind = token.kind)
      (text : token'.text = token.text)
  | last {t : Text} (hfurther : further = some t) (aligned : Aligned further r r')
      (ends : (token.kind = .eof ∧ r.text = []) ∨
        (token.kind = .terminator ∧ r.consumed.text = []))
      (terminator : token'.kind = .terminator) (after : r'.consumed.text = t)
  | crossed {t : Text} (hfurther : further = some t) (crossed : Crossed t r r')
      (eof : token.kind = .eof)

/-- Readers that stand at the same place see the same, unless the first sees the end or a carriage
return right before it. -/
theorem look_of_finds {remarks : List Item} {ends : Bool} {lexeme : Lexeme}
    (h : Aligned further r r') (hsees : Sees mode r token r₁) (hsees' : Sees mode r' token' r₁')
    (hfinds : mode.Finds r.text remarks ends lexeme r₁.text)
    (hfinds' : mode.Finds r'.text remarks ends lexeme (r₁.text ++ tail further)) :
    Look further token r₁ token' r₁' := by
  obtain ⟨hkind, htext, _, hremarks, hbreak⟩ := hsees.of_finds hfinds
  obtain ⟨hkind', htext', hrest', hremarks', hbreak'⟩ := hsees'.of_finds hfinds'
  have hle := (Mode.scan_bounds hfinds.settled.2.2.1).1
  refine .same ⟨hsees.sound, hsees'.sound, hrest', ?_, ?_⟩ (hkind'.trans hkind.symm) ?_
  · rw [hremarks', hremarks, h.remarks]
  · rw [hbreak', hbreak, h.lineBreak]
  · rw [htext', htext, List.take_append_of_le_length hle]

/-- A reader that looked over the end looks again, maybe in the other mode of the line: it stays
where it is. -/
theorem Crossed.peek {t : Text} (h : Crossed t r r') (hmode : mode.IsLine) :
    Ends (peek mode) r' (fun token' r₁' => r₁'.Shows mode token' ∧ Crossed t r r₁')
      (fun _ _ => ¬ Opens t) := by
  obtain ⟨mode', later, ends, lexeme, hmode', hfinds, hremarks⟩ := h.finds
  have hsettled := hfinds.settled
  have hstrip : mode.strip r'.text = r'.text := (hmode.strip_eq hmode' _).trans hsettled.2.1
  refine (peek_spec h.sound' mode).mono ?_ ?_
  · intro token' r₁' hsees
    obtain ⟨_, _, hfound, _⟩ := hsees.finds
    obtain ⟨found, hscan⟩ := hfound.scan_strip
    rw [hstrip] at hscan
    have hhere := hsettled.1.transfer hmode' hmode hscan
    obtain ⟨_, _, htext, hremarks', hbreak⟩ := hsees.of_finds hhere
    refine ⟨hsees.shows, h.sound, hsees.sound, h.text, by rw [hbreak, h.lineBreak]; rfl, ?_⟩
    refine ⟨mode, later, ends, found, hmode, ?_, by rw [hremarks', hremarks, List.append_nil]⟩
    rw [htext]
    exact hfinds.transfer hmode' hmode hscan
  · rintro fault r₁' ⟨_, hlost⟩ ⟨hdeclaration, hlabel⟩
    have hlegible : mode.Legible t := by
      rcases hmode with rfl | rfl
      · exact hdeclaration
      · exact hlabel
    obtain ⟨found, hscan, _⟩ := hfinds.scan_of_legible hmode' hmode hlegible
    exact hlost ⟨_, _, _, _, hsettled.1.transfer hmode' hmode hscan⟩

/-- Where the first reader sees the end in a mode of the line, the other sees the line break, or has
passed it and looks over it. -/
theorem Aligned.peek_eof {t : Text} (h : Aligned (some t) r r') (hmode : mode.IsLine)
    (hsees : Sees mode r token r₁) (heof : token.kind = .eof) :
    Ends (peek mode) r'
      (fun token' r₁' => r₁'.Shows mode token' ∧ Look (some t) token r₁ token' r₁')
      (fun _ _ => Lost (some t)) := by
  have htext' : r'.text = r.text ++ '\n' :: t := h.text
  obtain ⟨remarks, ends, hfinds, hremarks, hbreak⟩ := hsees.finds
  have hend : r₁.text = [] := (hsees.shows.eof_iff hsees.sound).mp heof
  rcases hfinds.append_eof t hmode heof with hnewline | ⟨hcross, hlegible⟩
  · rw [← htext'] at hnewline
    obtain ⟨token', r₁', hpeek', hsees'⟩ := peek_of_finds h.sound' hnewline
    obtain ⟨hkind, hone, hrest, hremarks', hbreak'⟩ := hsees'.of_finds hnewline
    refine (ends_of_ok hpeek').mpr ⟨hsees'.shows, .last rfl ⟨hsees.sound, hsees'.sound,
      ?_, ?_, ?_⟩ (.inl ⟨heof, hend⟩) hkind ?_⟩
    · rw [hrest, hend]
      rfl
    · rw [hremarks', hremarks, h.remarks]
    · rw [hbreak', hbreak, h.lineBreak]
    · rw [hsees'.shows.text_consumed hsees'.sound, hone, hrest]
      rfl
  · rw [← htext'] at hcross hlegible
    refine (peek_spec h.sound' mode).mono ?_ ?_
    · intro token' r₁' hsees'
      obtain ⟨_, _, hfound, _⟩ := hsees'.finds
      obtain ⟨later, e, lexeme, v, hlater⟩ := hlegible ⟨_, _, _, _, hfound⟩
      obtain ⟨_, _, hrest, hremarks', hbreak'⟩ :=
        hsees'.of_finds (hcross later e lexeme v hlater)
      refine ⟨hsees'.shows, .crossed rfl ⟨hsees.sound, hsees'.sound, hend, ?_, mode,
        later, e, lexeme, hmode, hrest ▸ hlater, ?_⟩ heof⟩
      · rw [hbreak', Bool.or_true]
      · rw [hremarks', hremarks, h.remarks, List.append_assoc]
    · rintro fault r₁' ⟨_, hlost⟩
      refine ⟨t, rfl, fun hopens => hlost ?_⟩
      have hlegible : mode.Legible t := by
        rcases hmode with rfl | rfl
        · exact hopens.1
        · exact hopens.2
      obtain ⟨later, e, lexeme, v, hlater⟩ := hlegible
      exact ⟨_, _, _, _, hcross later e lexeme v hlater⟩

/-- Where the first reader sees a token before the end, the other sees it too; a carriage return
right before the end takes the line break in. -/
theorem Aligned.peek (h : Aligned further r r') (hsees : Sees mode r token r₁)
    (hkind : further ≠ none → token.kind ≠ .eof) :
    Ends (Reader.peek mode) r'
      (fun token' r₁' => r₁'.Shows mode token' ∧ Look further token r₁ token' r₁')
      (fun _ _ => False) := by
  obtain ⟨remarks, ends, hfinds, hremarks, hbreak⟩ := hsees.finds
  cases further with
  | none =>
      have hfinds' : mode.Finds r'.text remarks ends ⟨token.kind, token.text.length⟩
          (r₁.text ++ tail none) := by
        rw [h.text, tail, List.append_nil, List.append_nil]
        exact hfinds
      obtain ⟨token', r₁', hpeek', hsees'⟩ := peek_of_finds h.sound' hfinds'
      exact (ends_of_ok hpeek').mpr ⟨hsees'.shows, look_of_finds h hsees hsees' hfinds hfinds'⟩
  | some t =>
      have htext' : r'.text = r.text ++ '\n' :: t := h.text
      rcases hfinds.append t (hkind (by simp)) with hsame | ⟨hreturn, hterminator, htakes⟩
      · rw [← htext'] at hsame
        obtain ⟨token', r₁', hpeek', hsees'⟩ := peek_of_finds h.sound' hsame
        exact (ends_of_ok hpeek').mpr ⟨hsees'.shows, look_of_finds h hsees hsees' hfinds hsame⟩
      · rw [← htext'] at htakes
        obtain ⟨token', r₁', hpeek', hsees'⟩ := peek_of_finds h.sound' htakes
        obtain ⟨hkind', htwo, hrest, hremarks', hbreak'⟩ := hsees'.of_finds htakes
        obtain ⟨hkind₁, hone⟩ := Lexeme.mk.inj hterminator
        refine (ends_of_ok hpeek').mpr ⟨hsees'.shows, .last rfl ⟨hsees.sound, hsees'.sound,
          hrest, ?_, ?_⟩ (.inr ⟨hkind₁, ?_⟩) hkind' ?_⟩
        · rw [hremarks', hremarks, h.remarks]
        · rw [hbreak', hbreak, h.lineBreak]
        · rw [hsees.shows.text_consumed hsees.sound, hone, hreturn]
          rfl
        · rw [hsees'.shows.text_consumed hsees'.sound, htwo, hrest, hreturn]
          rfl

/-- What the first reader sees in a mode of the line is matched by what the other sees. -/
theorem peek_mirrors (h : Reaches further r r') (hmode : mode.IsLine)
    (hpeek : peek mode r = .ok token r₁) :
    Ends (peek mode) r'
      (fun token' r₁' => r₁'.Shows mode token' ∧ Look further token r₁ token' r₁')
      (fun _ _ => Lost further) := by
  cases h with
  | crossed hfurther h =>
      have hsees := (peek_spec h.sound mode).ok hpeek
      obtain ⟨hkind, _, htext, hremarks, _⟩ := hsees.of_finds (h.text ▸ Mode.finds_nil)
      refine (h.peek hmode).mono ?_ fun _ _ hlost => ⟨_, hfurther, hlost⟩
      rintro token' r₁' ⟨hshows, hcrossed⟩
      refine ⟨hshows, .crossed hfurther ?_ hkind⟩
      obtain ⟨mode', later, ends, lexeme, hmode', hfinds, hlater⟩ := hcrossed.finds
      rw [List.append_nil] at hremarks
      exact ⟨hsees.sound, hcrossed.sound', htext.trans h.text, hcrossed.lineBreak,
        mode', later, ends, lexeme, hmode', hfinds, hremarks ▸ hlater⟩
  | aligned h =>
      have hsees := (peek_spec h.sound mode).ok hpeek
      by_cases hlast : further ≠ none → token.kind ≠ .eof
      · exact (h.peek hsees hlast).mono (fun _ _ hlook => hlook) fun _ _ hfalse => hfalse.elim
      · cases further with
        | none => exact absurd (fun hne => absurd rfl hne) hlast
        | some t =>
            have heof : token.kind = .eof := by simpa using hlast
            exact h.peek_eof hmode hsees heof

end Reader

end DiagramText
