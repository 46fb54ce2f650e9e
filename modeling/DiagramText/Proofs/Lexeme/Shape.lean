import DiagramText.Proofs.Lexeme.RespellLabel

/-!
# What tokens look like

A phrase is a row of elements with gaps between some of them (`Phrase.Row`), so
what begins or ends it, which characters are missing from it and which stand in
it only behind a backslash are read off by induction on the row.  From that
follow the shapes of names and of label texts (`IsName.isBareName`,
`isFreeText_of_spells`); connections, quoted texts, code blocks and the words of
lists have theirs from the recognisers that found them.
-/

namespace DiagramText

open Recogniser Text

namespace Text

/-- Every character of the kind `p` in the text has a backslash right before it. -/
def Guarded (p : Char → Bool) (s : Text) : Prop :=
  ∀ before c after, s = before ++ c :: after → p c = true → before.getLast? = some '\\'

theorem Guarded.nil {p : Char → Bool} : Guarded p [] := by
  intro before c after h
  exact absurd h (by simp)

/-- A character of another kind may stand before a guarded text. -/
theorem Guarded.cons {p : Char → Bool} {c : Char} {s : Text} (hc : p c = false)
    (hs : Guarded p s) : Guarded p (c :: s) := by
  intro before d after h hd
  cases before with
  | nil =>
      obtain ⟨rfl, _⟩ := List.cons.inj h
      rw [hc] at hd
      cases hd
  | cons b before =>
      have hlast := hs before d after (List.cons.inj h).2 hd
      rw [List.getLast?_cons, hlast]
      rfl

/-- Any character may stand behind a backslash before a guarded text. -/
theorem Guarded.escaped {p : Char → Bool} {c : Char} {s : Text} (hslash : p '\\' = false)
    (hs : Guarded p s) : Guarded p ('\\' :: c :: s) := by
  intro before d after h hd
  rcases before with _ | ⟨a, _ | ⟨b, before⟩⟩
  · obtain ⟨rfl, _⟩ := List.cons.inj h
    rw [hslash] at hd
    cases hd
  · obtain ⟨rfl, _⟩ := List.cons.inj h
    rfl
  · have hlast := hs before d after (List.cons.inj (List.cons.inj h).2).2 hd
    rw [List.getLast?_cons, List.getLast?_cons, hlast]
    rfl

end Text

/-! ## Phrases -/

namespace Phrase

variable {p : Phrase}

/-- Elements in a row, each escaped or as it stands, and gaps before some of them. -/
inductive Row (p : Phrase) : Text → Prop
  | nil : Row p []
  | escaped {c : Char} {s : Text} (escapable : p.isEscapable c = true) (later : Row p s) :
      Row p ('\\' :: c :: s)
  | body {c : Char} {s : Text} (here : p.isBody c = true) (free : p.isBarred (c :: s) = false)
      (later : Row p s) : Row p (c :: s)
  | gap {c : Char} {s : Text} (here : p.isGap c = true) (some : s ≠ []) (later : Row p s) :
      Row p (c :: s)

/-- A text that is counted whole is a row.  The induction follows the count. -/
theorem row_of_extent {pending : Nat} {s : Text} (h : p.extent pending s = pending + s.length) :
    p.Row s := by
  fun_induction extent p pending s with
  | case1 => exact .nil
  | case2 pending c hc =>
      simp only [Bool.and_eq_true, Bool.not_eq_true'] at hc
      exact .body hc.1 hc.2 .nil
  | case3 => simp at h
  | case4 pending c d rest hc ih =>
      simp only [Bool.and_eq_true, beq_iff_eq] at hc
      obtain ⟨rfl, hd⟩ := hc
      refine .escaped hd (ih ?_)
      simp only [List.length_cons] at h
      omega
  | case5 pending c d rest _ hc ih =>
      simp only [Bool.and_eq_true, Bool.not_eq_true'] at hc
      refine .body hc.1 hc.2 (ih ?_)
      simp only [List.length_cons] at h ⊢
      omega
  | case6 pending c d rest _ _ hc ih =>
      refine .gap hc (List.cons_ne_nil _ _) (ih ?_)
      simp only [List.length_cons] at h ⊢
      omega
  | case7 => simp at h

/-- An element as it stands, or an escaped one. -/
def IsElement (p : Phrase) (s : Text) : Prop :=
  (∃ c, s = [c] ∧ p.isBody c = true) ∨ ∃ c, s = ['\\', c] ∧ p.isEscapable c = true

/-- A phrase that is a whole text is a row, and begins with an element. -/
theorem row_of_length {s : Text} (hs : s ≠ []) (h : p.length s = s.length) :
    p.Row s ∧ ∃ element, p.IsElement element ∧ element <+: s := by
  have hpos : p.length s ≠ 0 := by
    rw [h]
    exact fun hzero => hs (List.length_eq_zero_iff.mp hzero)
  have hbegins := length_ne_zero_iff.mp hpos
  rw [length, if_pos hbegins] at h
  refine ⟨@row_of_extent p 0 s (by omega), ?_⟩
  cases s with
  | nil => exact absurd rfl hs
  | cons c s =>
      simp only [beginsAt, Bool.or_eq_true, Bool.and_eq_true, beq_iff_eq] at hbegins
      rcases hbegins with ⟨rfl, hescape⟩ | ⟨hbody, _⟩
      · cases s with
        | nil => simp at hescape
        | cons d s => exact ⟨['\\', d], .inr ⟨d, rfl, by simpa using hescape⟩, s, rfl⟩
      · exact ⟨[c], .inl ⟨c, rfl, hbody⟩, s, rfl⟩

/-- A row ends with an element. -/
theorem Row.ends {s : Text} (h : p.Row s) (hs : s ≠ []) :
    ∃ element, p.IsElement element ∧ element <:+ s := by
  induction h with
  | nil => exact absurd rfl hs
  | @escaped c s escapable _ ih =>
      by_cases hnil : s = []
      · subst hnil
        exact ⟨['\\', c], .inr ⟨c, rfl, escapable⟩, List.suffix_refl _⟩
      · obtain ⟨element, helement, hsuffix⟩ := ih hnil
        exact ⟨element, helement, hsuffix.trans ((List.suffix_cons _ _).trans (List.suffix_cons _ _))⟩
  | @body c s here _ _ ih =>
      by_cases hnil : s = []
      · subst hnil
        exact ⟨[c], .inl ⟨c, rfl, here⟩, List.suffix_refl _⟩
      · obtain ⟨element, helement, hsuffix⟩ := ih hnil
        exact ⟨element, helement, hsuffix.trans (List.suffix_cons _ _)⟩
  | gap _ some _ ih =>
      obtain ⟨element, helement, hsuffix⟩ := ih some
      exact ⟨element, helement, hsuffix.trans (List.suffix_cons _ _)⟩

/-- A character that is no backslash, element or gap, escaped or not, stands in no row. -/
theorem Row.forall_mem {q : Char → Bool} {s : Text} (h : p.Row s) (hslash : q '\\' = false)
    (hescape : ∀ c, p.isEscapable c = true → q c = false)
    (hbody : ∀ c, p.isBody c = true → q c = false) (hgap : ∀ c, p.isGap c = true → q c = false) :
    ∀ c ∈ s, q c = false := by
  induction h with
  | nil => simp
  | escaped escapable _ ih =>
      simp only [List.forall_mem_cons]
      exact ⟨hslash, hescape _ escapable, ih⟩
  | body here _ _ ih => exact List.forall_mem_cons.mpr ⟨hbody _ here, ih⟩
  | gap here _ _ ih => exact List.forall_mem_cons.mpr ⟨hgap _ here, ih⟩

/-- A character that is an element only behind a backslash stands in a row only there. -/
theorem Row.guarded {q : Char → Bool} {s : Text} (h : p.Row s) (hslash : q '\\' = false)
    (hbody : ∀ c, p.isBody c = true → q c = false) (hgap : ∀ c, p.isGap c = true → q c = false) :
    Guarded q s := by
  induction h with
  | nil => exact .nil
  | escaped _ _ ih => exact .escaped hslash ih
  | body here _ _ ih => exact .cons (hbody _ here) ih
  | gap here _ _ ih => exact .cons (hgap _ here) ih

end Phrase

/-- Word characters and marks that are no white space are none. -/
theorem not_isBlank_of_isWord {marks : List Char} (hmarks : marks.all (!isBlank ·) = true) {c : Char}
    (hc : (isWord c || marks.contains c) = true) : isBlank c = false := by
  refine Bool.eq_false_iff.mpr fun hblank => ?_
  rw [not_isWord_of_isBlank hblank, Phrase.not_contains_of_isBlank hblank hmarks] at hc
  cases hc

theorem not_isBreak_of_not_isBlank {c : Char} (h : isBlank c = false) : isBreak c = false := by
  refine Bool.eq_false_iff.mpr fun hbreak => ?_
  rw [isBlank_of_isBreak hbreak] at h
  cases h

theorem not_isBreak_of_isInlineBlank {c : Char} (h : isInlineBlank c = true) :
    isBreak c = false := by
  simp only [isInlineBlank, Bool.and_eq_true, Bool.not_eq_true'] at h
  exact h.2

/-! ## Names -/

/-- What a bare name looks like: it begins and ends with an element, holds no line break and no two
dashes in a row, and number signs only behind backslashes. -/
structure Text.IsBareName (name : Text) : Prop where
  begins : (∃ c, namePhrase.isBody c = true ∧ [c] <+: name) ∨ "\\#".toList <+: name
  ends : (∃ c, namePhrase.isBody c = true ∧ [c] <:+ name) ∨ "\\#".toList <:+ name
  unbroken : ∀ c ∈ name, isBreak c = false
  dashes : ¬ "--".toList <:+: name
  guarded : name.Guarded (· == '#')

/-- Two dashes in a row would be a connection, so no element begins there. -/
theorem Phrase.Row.dashes {s : Text} (h : namePhrase.Row s) : ¬ "--".toList <:+: s := by
  have hcons : ∀ {c : Char} {s : Text}, ¬ "--".toList <+: c :: s → ¬ "--".toList <:+: s →
      ¬ "--".toList <:+: c :: s := by
    intro c s hhere hlater h
    exact (List.infix_cons_iff.mp h).elim hhere hlater
  have hother : ∀ {c : Char} {s : Text}, c ≠ '-' → ¬ "--".toList <+: c :: s := by
    rintro c s hc ⟨t, ht⟩
    exact hc (List.cons.inj ht).1.symm
  induction h with
  | nil => decide
  | escaped escapable _ ih =>
      obtain rfl : _ = '#' := by simpa [namePhrase] using escapable
      exact hcons (hother (by decide)) (hcons (hother (by decide)) ih)
  | @body c s _ free _ ih =>
      refine hcons ?_ ih
      rintro ⟨t, ht⟩
      have hbarred : 0 < connectionLength (c :: s) :=
        connectionLength_pos_iff.mpr ⟨t, .inr (.inl ht.symm)⟩
      simp only [namePhrase, decide_eq_false_iff_not] at free
      exact free hbarred
  | gap here _ _ ih =>
      refine hcons (hother ?_) ih
      rintro rfl
      exact absurd here (by decide)

theorem IsName.isBareName {x : Text} (h : IsName x) : x.IsBareName := by
  obtain ⟨hrow, element, helement, hfront⟩ := Phrase.row_of_length h.some h.length
  obtain ⟨last, hlast, hback⟩ := hrow.ends h.some
  have hescape : ∀ c, namePhrase.isEscapable c = true → c = '#' := fun c hc => by
    simpa [namePhrase] using hc
  refine ⟨?_, ?_, ?_, hrow.dashes, ?_⟩
  · rcases helement with ⟨c, rfl, hc⟩ | ⟨c, rfl, hc⟩
    · exact .inl ⟨c, hc, hfront⟩
    · obtain rfl := hescape c hc
      exact .inr hfront
  · rcases hlast with ⟨c, rfl, hc⟩ | ⟨c, rfl, hc⟩
    · exact .inl ⟨c, hc, hback⟩
    · obtain rfl := hescape c hc
      exact .inr hback
  · refine hrow.forall_mem (by decide) (fun c hc => ?_)
      (fun c hc => not_isBreak_of_not_isBlank (not_isBlank_of_isWord (by decide) hc)) fun c hc => ?_
    · rw [hescape c hc]
      decide
    · rcases Bool.or_eq_true_iff.mp hc with hc | hc
      · exact not_isBreak_of_isInlineBlank hc
      · simp only [List.contains_cons, List.contains_nil, Bool.or_false, Bool.or_eq_true,
          beq_iff_eq] at hc
        rcases hc with rfl | rfl <;> decide
  · refine hrow.guarded (by decide) (fun c hc => ?_) fun c hc => ?_ <;>
      refine beq_eq_false_iff_ne.mpr ?_ <;> rintro rfl <;> exact absurd hc (by decide)

/-! ## Quoted texts -/

/-- A text that may stand between two marks does not end with a backslash. -/
theorem Text.Enclosed.getLast? {mark : Char} {escaped : Bool} {s : Text}
    (h : Enclosed mark escaped s) : s.getLast? ≠ some '\\' := by
  induction s generalizing escaped with
  | nil => simp
  | cons c s ih =>
      obtain ⟨_, hs⟩ := h
      cases s with
      | nil => simpa [Enclosed] using hs
      | cons d s =>
          rw [List.getLast?_cons_cons]
          exact ih hs

/-- Nor does the value of a quoted text. -/
theorem IsQuoted.getLast?_unquote? {marks : List QuoteMark} {x : Text} (h : IsQuoted marks x) :
    ((unquote? x).getD []).getLast? ≠ some '\\' := by
  obtain ⟨mark, _, body, rfl, henclosed⟩ := h
  have hmark : mark.char ≠ '\\' := by cases mark <;> decide
  have hvalue : (unquote? (mark.char :: body ++ [mark.char])).getD [] = unescape body [mark.char] := by
    simp [unquote?]
  rw [hvalue]
  intro hlast
  obtain ⟨value, hvalue⟩ := List.getLast?_eq_some_iff.mp hlast
  -- Quoting such a value would give back a text that ends with a backslash.
  have hbody := escape_unescape hmark henclosed
  rw [hvalue, escape_singleton, List.flatMap_append] at hbody
  refine henclosed.getLast? ?_
  rw [← hbody]
  simp [hmark.symm]

/-! ## Connections -/

/-- What a connection looks like and which way it points. -/
inductive IsOp : Text → Direction → Prop
  | bidirectional (n : Nat) : IsOp ('<' :: List.replicate (n + 1) '-' ++ ['>']) .bidirectional
  | reverse (n : Nat) : IsOp ('<' :: List.replicate (n + 1) '-') .reverse
  | forward (n : Nat) : IsOp (List.replicate (n + 1) '-' ++ ['>']) .forward
  | undirected (n : Nat) : IsOp (List.replicate (n + 2) '-') .undirected

/-- The direction of a connection is the one its arrowheads show. -/
theorem IsOp.direction {op : Text} {direction : Direction} (h : IsOp op direction) :
    Direction.ofOp op = direction := by
  have hdash : ∀ (c : Char) n, (c :: List.replicate (n + 1) '-').getLast? = some '-' := by
    intro c n
    rw [List.replicate_succ', ← List.cons_append, List.getLast?_concat]
  unfold Direction.ofOp
  cases h with
  | bidirectional n =>
      rw [List.getLast?_concat]
      rfl
  | reverse n =>
      rw [hdash]
      rfl
  | forward n =>
      rw [List.getLast?_concat]
      rfl
  | undirected n =>
      rw [List.replicate_succ, hdash]
      rfl

/-- A text begins with the stretch of one character that is at its front. -/
theorem Text.replicate_run (c : Char) (s : Text) :
    List.replicate (run (· == c) s) c ++ s.drop (run (· == c) s) = s := by
  have hstretch : s.takeWhile (· == c) = List.replicate (run (· == c) s) c := by
    refine List.eq_replicate_iff.mpr ⟨rfl, fun d hd => ?_⟩
    exact beq_iff_eq.mp (List.all_eq_true.mp List.all_takeWhile d hd)
  rw [← hstretch, drop_run, List.takeWhile_append_dropWhile]

/-- A text that begins with a character and has no more is that character. -/
theorem eq_singleton_of_head? {s : Text} {c : Char} (h : s.head? = some c) (hlength : s.length = 1) :
    s = [c] := by
  obtain ⟨d, rfl⟩ := List.length_eq_one_iff.mp hlength
  simpa using h

/-- Dashes and perhaps an arrowhead that end a connection. -/
theorem dashes_of_length {s : Text} {n : Nat} (h : run (· == '-') s = n)
    (hlength : s.length = if (s.drop n).head? = some '>' then n + 1 else n) :
    s = List.replicate n '-' ++ ['>'] ∨ s = List.replicate n '-' := by
  have hs := Text.replicate_run '-' s
  rw [h] at hs
  split at hlength
  · next harrow =>
      rw [eq_singleton_of_head? harrow (by rw [List.length_drop]; omega)] at hs
      exact .inl hs.symm
  · rw [List.drop_eq_nil_of_le (by omega), List.append_nil] at hs
    exact .inr hs.symm

theorem IsConnection.isOp {x : Text} (h : IsConnection x) : ∃ direction, IsOp x direction := by
  obtain ⟨hsome, hlength⟩ := h
  unfold connectionLength at hlength
  split at hlength
  · next s =>
      generalize hn : run (· == '-') s = n at hlength
      cases n with
      | zero => simp at hlength
      | succ n =>
          rw [if_neg (Nat.succ_ne_zero n), List.length_cons] at hlength
          rcases dashes_of_length hn (by split at hlength <;> split <;> first | omega | contradiction)
            with rfl | rfl
          · exact ⟨_, .bidirectional n⟩
          · exact ⟨_, .reverse n⟩
  · next s =>
      generalize hn : run (· == '-') s = n at hlength
      simp only [List.drop_succ_cons, List.length_cons] at hlength
      have hshort : s.length = if (s.drop n).head? = Option.some '>' then n + 1 else n := by
        split at hlength
        · next harrow =>
            rw [if_pos harrow]
            omega
        · next harrow =>
            rw [if_neg harrow]
            split at hlength <;> omega
      rcases dashes_of_length hn hshort with rfl | rfl
      · exact ⟨_, .forward n⟩
      · cases n with
        | zero => simp at hlength
        | succ m => exact ⟨_, .undirected m⟩
  · exact absurd (List.length_eq_zero_iff.mp hlength.symm) hsome

/-! ## Labels -/

/-- The language of a code block is letters and digits, and its text does not go on with them. -/
theorem CodeParts.of_ofText? {s : Text} {parts : CodeParts} (h : ofText? s = some (.ok parts)) :
    (parts.language ≠ [] ∧ parts.language.all Char.isAlphanum = true) ∧
      parts.content.Begins fun c => c.isAlphanum = false := by
  unfold ofText? at h
  obtain ⟨style, _, hparts⟩ := Option.map_eq_some_iff.mp h
  split at hparts
  · cases hparts
  · next language tag htag =>
      obtain rfl := Except.ok.inj hparts
      obtain ⟨hsome, hletters, hends⟩ := languageTag?_spec htag
      refine ⟨⟨hsome, hletters⟩, fun c hc => hends c ?_⟩
      rw [List.drop_drop]
      rw [List.head?_take] at hc
      split at hc
      · cases hc
      · exact hc

/-- What a free text looks like: it begins and ends with no white space, holds no line break and no
closing brace, and number signs and opening braces only behind backslashes. -/
structure Text.IsFreeText (text : Text) : Prop where
  begins : ∀ c, text.head? = some c → isBlank c = false
  ends : ∀ c, text.getLast? = some c → isBlank c = false
  unbroken : ∀ c ∈ text, isBreak c = false
  braces : '\x7d' ∉ text
  guarded : text.Guarded fun c => c == '#' || c == '\x7b'

theorem isFreeText_of_spells {x : Text} (h : Mode.label.Spells .text x) : x.IsFreeText := by
  have hx := h.ne_nil (by decide)
  obtain ⟨rest, hscan⟩ := h
  have hlength := (Mode.scan_text.mp hscan).2.2.2.2.2
  have htake := Phrase.regular_labelPhrase.length_take (hlength.1 ▸ hlength.2)
  rw [hlength.1, List.take_left] at htake
  obtain ⟨hrow, element, helement, hfront⟩ := Phrase.row_of_length hx htake
  obtain ⟨last, hlast, hback⟩ := hrow.ends hx
  have hbody : ∀ c, labelPhrase.isBody c = true → isBlank c = false := fun c hc =>
    not_isBlank_of_isWord (by decide) hc
  have hescape : ∀ c, labelPhrase.isEscapable c = true → c = '#' ∨ c = '\x7b' := fun c hc => by
    simpa [labelPhrase] using hc
  refine ⟨fun c hc => ?_, fun c hc => ?_, ?_, fun hmem => ?_, ?_⟩
  · rcases helement with ⟨d, rfl, hd⟩ | ⟨d, rfl, _⟩ <;> obtain ⟨t, rfl⟩ := hfront
    · exact Option.some.inj hc ▸ hbody d hd
    · exact Option.some.inj hc ▸ rfl
  · rcases hlast with ⟨d, rfl, hd⟩ | ⟨d, rfl, hd⟩ <;> obtain ⟨t, rfl⟩ := hback
    · rw [List.getLast?_concat] at hc
      exact Option.some.inj hc ▸ hbody d hd
    · rw [List.append_cons, List.getLast?_concat] at hc
      obtain rfl := Option.some.inj hc
      rcases hescape d hd with rfl | rfl <;> decide
  · refine hrow.forall_mem (by decide) (fun c hc => ?_)
      (fun c hc => not_isBreak_of_not_isBlank (hbody c hc)) fun c => not_isBreak_of_isInlineBlank
    rcases hescape c hc with rfl | rfl <;> decide
  · have hbrace := hrow.forall_mem (q := (· == '\x7d')) (by decide) (fun c hc => ?_) (fun c hc => ?_)
      (fun c hc => ?_) _ hmem
    · cases hbrace
    · rcases hescape c hc with rfl | rfl <;> decide
    · refine beq_eq_false_iff_ne.mpr ?_
      rintro rfl
      exact absurd hc (by decide)
    · refine beq_eq_false_iff_ne.mpr ?_
      rintro rfl
      exact absurd hc (by decide)
  · refine hrow.guarded (by decide) (fun c hc => ?_) fun c hc => ?_ <;>
      refine Bool.eq_false_iff.mpr fun hmark => ?_ <;>
      simp only [Bool.or_eq_true, beq_iff_eq] at hmark <;>
      rcases hmark with rfl | rfl <;> exact absurd hc (by decide)

end DiagramText
