import DiagramText.Proofs.Lexeme.Respell

/-!
# Tokens of labels and lists that are spelled again

The quoted texts, literals and code blocks of labels, and the words of argument
and constraint lists.  A number or boolean is scanned where a literal may end, a
word where no further character of a word follows, and a code block anywhere.
-/

namespace DiagramText

open Recogniser Text

/-! ## Quoted texts -/

/-- A quoted text of a label stands between double quotes. -/
theorem IsQuoted.of_spells_label {x : Text} (h : Mode.label.Spells .quoted x) :
    IsQuoted [.double] x := by
  obtain ⟨rest, hfirst⟩ := h.firstOf (by decide)
  refine .of_firstOf ?_ hfirst
  simp only [List.forall_mem_cons, List.not_mem_nil, false_implies, implies_true, and_true]
  exact ⟨⟨.punct, by simp, ofKind_ofLength⟩, ⟨.codeBlock, by simp, ofKind_codeBlock⟩,
    ⟨.number, by simp, ofKind_ofLength⟩, ⟨.boolean, by simp, ofKind_ofLength⟩,
    ⟨.text, by simp, ofKind_ofLength⟩⟩

/-! ## Numbers and booleans -/

/-- A numeral begins with a sign or a digit. -/
theorem numeral_front {c : Char} {s : Text} (h : numeralLength (c :: s) ≠ 0) :
    c = '+' ∨ c = '-' ∨ c.isDigit = true := by
  unfold numeralLength at h
  by_cases hsign : c = '+' ∨ c = '-'
  · exact hsign.elim .inl fun hminus => .inr (.inl hminus)
  · simp only [if_neg hsign, unsignedLength, run_cons] at h
    refine .inr (.inr ?_)
    by_cases hdigit : c.isDigit = true
    · exact hdigit
    · simp [hdigit] at h

/-- A numeral begins with a character that begins nothing else in a label. -/
theorem numeral_not_mem {c : Char} {s : Text} {marks : List Char} (h : numeralLength (c :: s) ≠ 0)
    (hmarks : marks.all (fun c => !(c == '+' || c == '-' || c.isDigit)) = true) : c ∉ marks := by
  intro hmem
  have := List.all_eq_true.mp hmarks c hmem
  rcases numeral_front h with rfl | rfl | hdigit
  · cases this
  · cases this
  · simp [hdigit] at this

/-- The text is one numeral. -/
structure IsNumeral (x : Text) : Prop where
  some : x ≠ []
  length : numeralLength x = x.length

/-- A literal that is scanned whole ends where it may end. -/
theorem literalLength_eq {length : Text → Nat} {x rest : Text} (hx : x ≠ [])
    (h : literalLength length (x ++ rest) = x.length) :
    length (x ++ rest) = x.length ∧ isLiteralEnd rest = true := by
  unfold literalLength at h
  split at h
  · next hend =>
      rw [h, List.drop_left] at hend
      exact ⟨h, hend⟩
  · exact absurd (List.length_eq_zero_iff.mp h.symm) hx

/-- A number of a label is a numeral. -/
theorem IsNumeral.of_spells {x : Text} (h : Mode.label.Spells .number x) : IsNumeral x := by
  have hx := h.ne_nil (by decide)
  refine ⟨hx, ?_⟩
  obtain ⟨rest, hfirst⟩ := h.firstOf (by decide)
  rw [Mode.recognisers, Mode.firstOf_shared (by simp), punctuation,
    firstOf_skip ofKind_ofLength (by simp), firstOf_skip ofKind_codeBlock (by simp),
    firstOf_eq_some_iff] at hfirst
  · obtain ⟨hlength, hend⟩ := literalLength_eq hx hfirst.2.2.2.1
    rwa [numeralLength_append ((begins_of_isLiteralEnd hend).imp fun _ hc =>
      ⟨not_isDigit_of_not_isPlainWord hc.1, hc.2⟩) hx] at hlength
  · simp only [List.forall_mem_cons, List.not_mem_nil, false_implies, implies_true, and_true]
    exact ⟨⟨.boolean, by simp, ofKind_ofLength⟩, ⟨.text, by simp, ofKind_ofLength⟩⟩

/-- A literal is found where it ends. -/
theorem literalLength_of_length {length : Text → Nat} {x u : Text}
    (h : length (x ++ u) = x.length) (hu : isLiteralEnd u = true) :
    literalLength length (x ++ u) = x.length := by
  rw [literalLength, h, List.drop_left, hu, if_pos rfl]

/-- A numeral is scanned where a literal may end. -/
theorem IsNumeral.scan {x u : Text} (h : IsNumeral x) (hu : isLiteralEnd u = true) :
    Mode.label.scan (x ++ u) = .ok ⟨.number, x.length⟩ := by
  have hlength : literalLength numeralLength (x ++ u) = x.length := by
    refine literalLength_of_length ?_ hu
    rw [numeralLength_append ((begins_of_isLiteralEnd hu).imp fun _ hc =>
      ⟨not_isDigit_of_not_isPlainWord hc.1, hc.2⟩) h.some, h.length]
  obtain ⟨hsome, hnumeral⟩ := h
  obtain ⟨c, s, rfl⟩ := List.exists_cons_of_ne_nil hsome
  have hne : numeralLength (c :: s) ≠ 0 := hnumeral ▸ Nat.succ_ne_zero _
  refine (Mode.scan_eq_ok (by simp)).mpr ?_
  rw [Mode.recognisers, List.cons_append,
    Mode.firstOf_of_not_shared (numeral_not_mem hne (by decide))]
  refine firstOf_cons_eq_some.mpr
    (.inr ⟨Mode.punctuation_eq_none (numeral_not_mem hne (by decide)) _, ?_⟩)
  have hbar : c ∉ ['|'] := numeral_not_mem hne (by decide)
  refine firstOf_cons_eq_some.mpr (.inr ⟨codeBlock_none (by simpa using hbar) _, ?_⟩)
  refine firstOf_cons_eq_some.mpr (.inl (ofLength_eq_some.mpr ?_))
  exact ⟨congrArg _ hlength.symm, hlength ▸ Nat.succ_ne_zero _⟩

/-- The text is one boolean. -/
def IsBoolean (x : Text) : Prop :=
  x = "true".toList ∨ x = "false".toList

/-- What is as long as a boolean is one. -/
theorem isBoolean_of_booleanLength {x rest : Text} (hx : x ≠ [])
    (h : booleanLength (x ++ rest) = x.length) : IsBoolean x := by
  unfold booleanLength at h
  split at h
  · next htrue =>
      obtain ⟨t, ht⟩ := List.isPrefixOf_iff_prefix.mp htrue
      have htake := congrArg (List.take x.length) ht
      rw [List.take_left, ← h] at htake
      exact .inl htake.symm
  · split at h
    · next hfalse =>
        obtain ⟨t, ht⟩ := List.isPrefixOf_iff_prefix.mp hfalse
        have htake := congrArg (List.take x.length) ht
        rw [List.take_left, ← h] at htake
        exact .inr htake.symm
    · exact absurd (List.length_eq_zero_iff.mp h.symm) hx

/-- A boolean of a label is one of the two words. -/
theorem IsBoolean.of_spells {x : Text} (h : Mode.label.Spells .boolean x) : IsBoolean x := by
  have hx := h.ne_nil (by decide)
  obtain ⟨rest, hfirst⟩ := h.firstOf (by decide)
  rw [Mode.recognisers, Mode.firstOf_shared (by simp), punctuation,
    firstOf_skip ofKind_ofLength (by simp), firstOf_skip ofKind_codeBlock (by simp),
    firstOf_skip ofKind_ofLength (by simp), firstOf_eq_some_iff] at hfirst
  · exact isBoolean_of_booleanLength hx (literalLength_eq hx hfirst.2.2.2.2.1).1
  · simp only [List.forall_mem_cons, List.not_mem_nil, false_implies, implies_true, and_true]
    exact ⟨.text, by simp, ofKind_ofLength⟩

/-- A boolean is scanned where a literal may end. -/
theorem IsBoolean.scan {x u : Text} (h : IsBoolean x) (hu : isLiteralEnd u = true) :
    Mode.label.scan (x ++ u) = .ok ⟨.boolean, x.length⟩ := by
  have hlength : booleanLength (x ++ u) = x.length := by
    rcases h with rfl | rfl <;> rfl
  have hboolean := literalLength_of_length hlength hu
  have hnumber : literalLength numeralLength (x ++ u) = 0 := by
    rcases h with rfl | rfl <;> rfl
  have hfirst : firstOf (Mode.recognisers .label) (x ++ u) =
      firstOf [.ofLength .number (literalLength numeralLength),
        .ofLength .boolean (literalLength booleanLength),
        .ofLength .text labelPhrase.length] (x ++ u) := by
    rcases h with rfl | rfl <;> rfl
  have hne : x ≠ [] := by
    rcases h with rfl | rfl <;> exact List.cons_ne_nil _ _
  refine (Mode.scan_eq_ok (by simp [hne])).mpr (hfirst.trans ?_)
  refine firstOf_cons_eq_some.mpr (.inr ⟨ofLength_eq_none.mpr hnumber, ?_⟩)
  refine firstOf_cons_eq_some.mpr (.inl (ofLength_eq_some.mpr ?_))
  exact ⟨congrArg _ hboolean.symm, hboolean ▸ fun hzero => hne (List.length_eq_zero_iff.mp hzero)⟩

/-! ## Code blocks -/

namespace Text

/-- Where a search finds a mark the mark stands. -/
theorem find?_stands {mark s : Text} {k : Nat} (h : find? mark s = some k) : mark <+: s.drop k := by
  induction s generalizing k with
  | nil =>
      cases mark with
      | nil => exact List.nil_prefix
      | cons => simp [find?] at h
  | cons c s ih =>
      rw [find?] at h
      split at h
      · next hmark =>
          obtain rfl := Option.some.inj h
          exact List.isPrefixOf_iff_prefix.mp hmark
      · obtain ⟨j, hj, rfl⟩ := Option.map_eq_some_iff.mp h
        exact ih hj

/-- A mark that is found at the end of a text ends the text. -/
theorem find?_end {mark s : Text} {k : Nat} (h : find? mark s = some k)
    (hlength : s.length = k + mark.length) : s.take k ++ mark = s := by
  have hmark : mark = s.drop k :=
    (find?_stands h).eq_of_length (by rw [List.length_drop]; omega)
  conv => rhs; rw [← List.take_append_drop k s, ← hmark]

/-- What is found within a text is found in the text alone. -/
theorem find?_of_append {mark s rest : Text} {k : Nat} (h : find? mark (s ++ rest) = some k)
    (hle : k + mark.length ≤ s.length) : find? mark s = some k := by
  induction s generalizing k with
  | nil =>
      obtain ⟨rfl, hmark⟩ := Nat.add_eq_zero_iff.mp (Nat.le_zero.mp hle)
      obtain rfl := List.eq_nil_of_length_eq_zero hmark
      rfl
  | cons c s ih =>
      simp only [List.cons_append, find?, List.length_cons] at h hle ⊢
      rw [isPrefixOf_cons_append_of_le (by omega)] at h
      split at h
      · next hmark => rw [if_pos hmark, h]
      · next hmark =>
          obtain ⟨j, hj, rfl⟩ := Option.map_eq_some_iff.mp h
          rw [if_neg hmark, ih hj (by omega), Option.map_some]

end Text

/-- A language tag is letters and digits, and none follows. -/
theorem languageTag?_spec {s language : Text} {tag : Nat}
    (h : languageTag? s = some (language, tag)) :
    language ≠ [] ∧ language.all Char.isAlphanum = true ∧
      Begins (fun c => c.isAlphanum = false) (s.drop tag) := by
  simp only [languageTag?] at h
  split at h
  · cases h
  · next htag =>
      obtain ⟨rfl, rfl⟩ : _ ∧ _ := by simpa using h
      refine ⟨htag, List.all_takeWhile, ?_⟩
      rw [← List.drop_drop, ← Text.run, drop_run]
      intro c hc
      have hstop := List.head?_dropWhile_not Char.isAlphanum
        (s.drop (run (fun c => c == ' ' || c == '\t') s))
      rwa [hc] at hstop

/-- Before a language tag stand spaces and tabs only. -/
theorem languageTag?_take {s language : Text} {tag : Nat}
    (h : languageTag? s = some (language, tag)) :
    ∃ blanks : Text, blanks.all (fun c => c == ' ' || c == '\t') = true ∧
      s.take tag = blanks ++ language := by
  simp only [languageTag?] at h
  split at h
  · cases h
  · obtain ⟨rfl, rfl⟩ : _ ∧ _ := by simpa using h
    refine ⟨s.takeWhile fun c => c == ' ' || c == '\t', List.all_takeWhile, ?_⟩
    rw [List.take_add]
    exact congr (congrArg _ (List.prefix_iff_eq_take.mp (List.takeWhile_prefix _)).symm)
      (List.prefix_iff_eq_take.mp (List.takeWhile_prefix _)).symm

/-- The parts of a code block that make one again when they are joined. -/
structure CodeParts.Fits (parts : CodeParts) : Prop where
  tagged : parts.language ≠ []
  letters : parts.language.all Char.isAlphanum = true
  ends : Begins (fun c => c.isAlphanum = false) (parts.content ++ parts.style.closer)
  closes : Text.find? parts.style.closer (parts.content ++ parts.style.closer) = some parts.content.length

/-- A language tag that ends within a text is found in the text alone. -/
theorem languageTag?_of_append {s rest language : Text} {tag : Nat}
    (h : languageTag? (s ++ rest) = some (language, tag)) (hlt : tag < s.length) :
    languageTag? s = some (language, tag) := by
  simp only [languageTag?] at h ⊢
  have hblanks : run (fun c => c == ' ' || c == '\t') s =
      min s.length (run (fun c => c == ' ' || c == '\t') (s ++ rest)) := run_of_append
  generalize run (fun c => c == ' ' || c == '\t') (s ++ rest) = blanks at h hblanks
  have hle : blanks ≤ tag := by
    split at h
    · cases h
    · have := (Prod.mk.inj (Option.some.inj h)).2
      omega
  rw [Nat.min_eq_right (by omega)] at hblanks
  rw [hblanks]
  rw [List.drop_append_of_le_length (by omega), List.takeWhile_append] at h
  split at h
  · next hwhole =>
      -- Then the tag would take all of the text.
      split at h
      · cases h
      · have hlength := (Prod.mk.inj (Option.some.inj h)).2
        simp only [List.length_append, List.length_drop] at hlength
        omega
  · exact h

/-- The text of a code block has parts that fit together, and consists of them and of spaces and tabs
before the language. -/
theorem CodeParts.of_spells {x : Text} (h : Mode.label.Spells .codeBlock x) :
    ∃ parts, CodeParts.ofText? x = some (.ok parts) ∧ parts.Fits ∧
      ∃ blanks : Text, blanks.all (fun c => c == ' ' || c == '\t') = true ∧
        x = parts.style.opener ++ blanks ++ parts.language ++ parts.content ++ parts.style.closer := by
  obtain ⟨rest, hfirst⟩ := h.firstOf (by decide)
  rw [Mode.recognisers, Mode.firstOf_shared (by simp), punctuation,
    firstOf_skip ofKind_ofLength (by simp)] at hfirst
  rcases firstOf_cons_eq_some.mp hfirst.2.2 with hcode | ⟨_, hlater⟩
  · obtain ⟨style, language, tag, content, hstyle, htag, hcloser, hlexeme⟩ :=
      codeBlock_eq_some.mp hcode
    have hlength := (Lexeme.mk.inj hlexeme).2
    have hpos := languageTag?_pos htag
    have hopener : 1 ≤ style.opener.length ∧ 1 ≤ style.closer.length := by
      cases style <;> decide
    have hstyle' : FenceStyle.openingOf? x = some style := by
      rw [← FenceStyle.openingOf?_append rest (by omega)]
      exact hstyle
    rw [List.drop_append_of_le_length (by omega)] at htag hcloser
    have htag' := languageTag?_of_append htag (by rw [List.length_drop]; omega)
    have hcloser' := Text.find?_of_append hcloser (by rw [List.length_drop]; omega)
    have hcontent : x.length - style.closer.length - (style.opener.length + tag) = content := by
      omega
    have hwhole := Text.find?_end hcloser' (by rw [List.length_drop]; omega)
    have hparts : CodeParts.ofText? x =
        some (.ok ⟨style, language, (x.drop (style.opener.length + tag)).take content⟩) := by
      simp only [CodeParts.ofText?, hstyle', Option.map_some, htag', hcontent]
    obtain ⟨hsome, hletters, hends⟩ := languageTag?_spec htag'
    rw [List.drop_drop, ← hwhole] at hends
    have hlength : ((x.drop (style.opener.length + tag)).take content).length = content := by
      rw [List.length_take, List.length_drop]
      omega
    obtain ⟨blanks, hblanks, htake⟩ := languageTag?_take htag'
    refine ⟨_, hparts, ⟨hsome, hletters, hends, ?_⟩, blanks, hblanks, ?_⟩
    · rw [hwhole, hlength]
      exact hcloser'
    · calc x = style.opener ++ x.drop style.opener.length :=
            (List.prefix_iff_eq_append.mp (FenceStyle.openingOf?_prefix hstyle')).symm
        _ = style.opener ++ (blanks ++ language ++ x.drop (style.opener.length + tag)) := by
            rw [← htake, ← List.drop_drop, List.take_append_drop]
        _ = style.opener ++ (blanks ++ language ++
              ((x.drop (style.opener.length + tag)).take content ++ style.closer)) := by rw [hwhole]
        _ = _ := by simp only [List.append_assoc]
  · have hkind : TokenKind.codeBlock ≠ .codeBlock := by
      refine kind_of_firstOf (P := fun kind => kind ≠ .codeBlock) ?_ hlater
      simp only [List.forall_mem_cons, List.not_mem_nil, false_implies, implies_true, and_true]
      exact ⟨⟨.number, by simp, ofKind_ofLength⟩, ⟨.boolean, by simp, ofKind_ofLength⟩,
        ⟨.text, by simp, ofKind_ofLength⟩⟩
    exact absurd rfl hkind

namespace CodeParts

/-- The text of a code block whose parts fit together. -/
def source (parts : CodeParts) : Text :=
  parts.style.opener ++ parts.language ++ parts.content ++ parts.style.closer

variable {parts : CodeParts}

/-- The fence is the one that was written, as no letter or digit goes on with it. -/
theorem Fits.openingOf? (h : parts.Fits) (u : Text) :
    FenceStyle.openingOf? (parts.style.opener ++ (parts.language ++ u)) = some parts.style := by
  obtain ⟨style, language, content⟩ := parts
  obtain ⟨c, letters, rfl⟩ := List.exists_cons_of_ne_nil h.tagged
  have hletter : c.isAlphanum = true := List.all_eq_true.mp h.letters c List.mem_cons_self
  have hbar : ('|' == c) = false := by
    refine beq_eq_false_iff_ne.mpr ?_
    rintro rfl
    exact absurd hletter (by decide)
  have hquote : ('\x60' == c) = false := by
    refine beq_eq_false_iff_ne.mpr ?_
    rintro rfl
    exact absurd hletter (by decide)
  cases style <;>
    simp [FenceStyle.openingOf?, List.find?, FenceStyle.opener, List.isPrefixOf, hbar, hquote]

/-- The language is the one that was written: no blank stands before it, and no letter or digit
after it. -/
theorem Fits.languageTag? (h : parts.Fits) (u : Text) :
    DiagramText.languageTag? (parts.language ++ (parts.content ++ parts.style.closer ++ u)) =
      some (parts.language, parts.language.length) := by
  obtain ⟨c, letters, hlanguage⟩ := List.exists_cons_of_ne_nil h.tagged
  have hletter : c.isAlphanum = true :=
    List.all_eq_true.mp h.letters c (hlanguage ▸ List.mem_cons_self)
  have hblank : (c == ' ' || c == '\t') = false := by
    refine Bool.eq_false_iff.mpr fun hc => ?_
    simp only [Bool.or_eq_true, beq_iff_eq] at hc
    rcases hc with rfl | rfl <;> exact absurd hletter (by decide)
  have hblanks : run (fun c => c == ' ' || c == '\t')
      (parts.language ++ (parts.content ++ parts.style.closer ++ u)) = 0 := by
    rw [hlanguage, List.cons_append, run_cons, if_neg (by simp [hblank])]
  have hends : Begins (fun c => c.isAlphanum = false) (parts.content ++ parts.style.closer ++ u) := by
    intro c hc
    refine h.ends c ?_
    rw [← hc]
    cases parts.style <;> cases parts.content <;> rfl
  have htag : (parts.language ++ (parts.content ++ parts.style.closer ++ u)).takeWhile
      Char.isAlphanum = parts.language := by
    rw [takeWhile_append hends]
    exact (List.takeWhile_prefix _).eq_of_length (run_eq_length_iff.mpr h.letters)
  simp only [DiagramText.languageTag?, hblanks, List.drop_zero, htag, if_neg h.tagged, Nat.zero_add]

/-- Code is printed as its opener, its language, its content and its closer. -/
theorem source_append (parts : CodeParts) (u : Text) :
    parts.source ++ u = parts.style.opener ++
      (parts.language ++ (parts.content ++ parts.style.closer ++ u)) := by
  simp [source]

/-- What follows the fence and the language. -/
theorem drop_source (parts : CodeParts) (u : Text) :
    (parts.source ++ u).drop (parts.style.opener.length + parts.language.length) =
      parts.content ++ parts.style.closer ++ u := by
  rw [source_append, ← List.drop_drop, List.drop_left, List.drop_left]

/-- A code block is scanned before anything. -/
theorem Fits.scan (h : parts.Fits) (u : Text) :
    Mode.label.scan (parts.source ++ u) = .ok ⟨.codeBlock, parts.source.length⟩ := by
  have hcode : codeBlock (parts.source ++ u) = .ok (some ⟨.codeBlock, parts.source.length⟩) := by
    refine codeBlock_eq_some.mpr
      ⟨parts.style, parts.language, parts.language.length, parts.content.length, ?_, ?_, ?_, ?_⟩
    · rw [source_append]
      exact h.openingOf? _
    · rw [source_append, List.drop_left]
      exact h.languageTag? u
    · rw [drop_source]
      exact find?_append h.closes
    · simp [source, Nat.add_assoc]
  have hopener : ∃ t, parts.source ++ u = '|' :: t := by
    rw [source_append]
    cases parts.style <;> exact ⟨_, rfl⟩
  obtain ⟨t, ht⟩ := hopener
  rw [ht] at hcode ⊢
  refine (Mode.scan_eq_ok (List.cons_ne_nil _ _)).mpr ?_
  rw [Mode.recognisers, Mode.firstOf_of_not_shared (by decide)]
  refine firstOf_cons_eq_some.mpr (.inr ⟨Mode.punctuation_eq_none (by decide) t, ?_⟩)
  exact firstOf_cons_eq_some.mpr (.inl hcode)

/-- Taking the text of a code block apart gives its parts again. -/
theorem Fits.ofText? (h : parts.Fits) : CodeParts.ofText? parts.source = some (.ok parts) := by
  have hsource := source_append parts []
  have hdrop := drop_source parts []
  rw [List.append_nil] at hsource hdrop
  have hstyle : FenceStyle.openingOf? parts.source = some parts.style := by
    rw [hsource]
    exact h.openingOf? _
  have htag : DiagramText.languageTag? (parts.source.drop parts.style.opener.length) =
      some (parts.language, parts.language.length) := by
    rw [hsource, List.drop_left]
    exact h.languageTag? []
  have hcontent : parts.source.length - parts.style.closer.length -
      (parts.style.opener.length + parts.language.length) = parts.content.length := by
    simp only [source, List.length_append]
    omega
  simp only [CodeParts.ofText?, hstyle, Option.map_some, htag, hdrop, hcontent, List.append_nil,
    List.take_left]

end CodeParts

/-! ## Words of lists -/

namespace Mode

/-- The mode reads a list: besides comments and marks it knows words of these characters only. -/
def Lists (mode : Mode) (marks : List Char) (p : Char → Bool) : Prop :=
  mode.recognisers = [lineComment, punctuation marks, word p]

theorem lists_arguments :
    Mode.arguments.Lists ['(', ')', ',', ':'] fun c => isPlainWord c || c == '[' || c == ']' :=
  rfl

theorem lists_constraints : Mode.constraints.Lists ['[', ']', ';'] isPlainWord :=
  rfl

variable {mode : Mode} {marks : List Char} {p : Char → Bool}

/-- A word of a list is made of the characters of words. -/
theorem Lists.all_of_spells (h : mode.Lists marks p) {x : Text} (hx : mode.Spells .ident x) :
    x ≠ [] ∧ x.all p = true := by
  refine ⟨hx.ne_nil (by decide), ?_⟩
  obtain ⟨rest, hfirst⟩ := hx.firstOf (by decide)
  rw [h, lineComment, firstOf_skip ofKind_ofLength (by simp), punctuation,
    firstOf_skip ofKind_ofLength (by simp), word, firstOf_eq_some_iff (by simp)] at hfirst
  rw [← run_eq_length_iff, run_of_append, hfirst.2.2.1, Nat.min_self]

/-- A word of a list is scanned where no character of words follows. -/
theorem Lists.scan_word (h : mode.Lists marks p) (hmarks : ('#' :: marks).all (!p ·) = true)
    {x u : Text} (hx : x ≠ []) (hall : x.all p = true) (hu : u.Begins fun c => p c = false) :
    mode.scan (x ++ u) = .ok ⟨.ident, x.length⟩ := by
  have hword : run p (x ++ u) = x.length := by
    rw [run_append hu, run_eq_length_iff, hall]
  obtain ⟨c, s, rfl⟩ := List.exists_cons_of_ne_nil hx
  have hmark : c ∉ '#' :: marks := by
    intro hmem
    have hbody := List.all_eq_true.mp hall c List.mem_cons_self
    simpa [hbody] using List.all_eq_true.mp hmarks c hmem
  rw [List.mem_cons, not_or] at hmark
  refine (Mode.scan_eq_ok (by simp)).mpr ?_
  rw [h]
  refine firstOf_cons_eq_some.mpr (.inr ⟨ofLength_eq_none.mpr (by simp [commentLength, hmark.1]), ?_⟩)
  refine firstOf_cons_eq_some.mpr (.inr ⟨punctuation_eq_none hmark.2 _, ?_⟩)
  refine firstOf_cons_eq_some.mpr (.inl (ofLength_eq_some.mpr ?_))
  exact ⟨congrArg _ hword.symm, hword ▸ Nat.succ_ne_zero _⟩

/-- A mark of a list is scanned as such. -/
theorem Lists.scan_mark (h : mode.Lists marks p) {c : Char} (hc : c ∈ marks) (hcomment : c ≠ '#')
    (u : Text) : mode.scan (c :: u) = .ok ⟨.punct, 1⟩ := by
  refine (Mode.scan_eq_ok (List.cons_ne_nil c u)).mpr ?_
  rw [h]
  refine firstOf_cons_eq_some.mpr (.inr ⟨ofLength_eq_none.mpr (by simp [commentLength, hcomment]), ?_⟩)
  exact firstOf_cons_eq_some.mpr (.inl (ofLength_eq_some.mpr (by simp [hc])))

end Mode

end DiagramText
