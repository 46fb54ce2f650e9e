import DiagramText.Proofs.Lexeme.Front
import DiagramText.Proofs.Reader.Progress

/-!
# Reading a text from its front

A reader stands at a text when nothing but blanks of the line may lie between
what it consumed and the text (`Reader.At`).  What a mode cuts from the text then
is what the reader sees and consumes (`Mode.Cuts`), so that what a program comes
to from such a reader is a matter of the text: `Reads p t post` says that `p`
succeeds wherever a reader stands at `t`, with an outcome that `post` holds of.

`many_reads` carries a step that reads one value over to its repetition, which
reads a list of values one after the other.
-/

namespace DiagramText

namespace Mode

/-- The text without the blanks of the line at its front. -/
def unindent (s : Text) : Text :=
  Mode.declaration.strip s

/-- At the front of the text, blanks apart, the mode reads a token of this kind and text that is no
comment, and the other text is left. -/
structure Cuts (mode : Mode) (s : Text) (kind : TokenKind) (x rest : Text) : Prop where
  split : unindent s = x ++ rest
  scanned : mode.scan (x ++ rest) = .ok ⟨kind, x.length⟩
  plain : kind.isComment = false

variable {mode : Mode}

/-- Blanks of the line are white space to each mode. -/
theorem skips_of_isInlineBlank (mode : Mode) {c : Char} (h : isInlineBlank c = true) :
    mode.skips c = true := by
  cases mode
  · exact h
  · exact h
  · exact isBlank_of_isInlineBlank h
  · exact isBlank_of_isInlineBlank h

/-- Blanks in front are taken away. -/
theorem unindent_append {blanks : Text} (h : blanks.all isInlineBlank = true) (s : Text) :
    unindent (blanks ++ s) = unindent s :=
  List.dropWhile_append_of_pos (List.all_eq_true.mp h)

theorem unindent_cons {c : Char} (h : isInlineBlank c = true) (s : Text) :
    unindent (c :: s) = unindent s :=
  List.dropWhile_cons_of_pos h

theorem unindent_space (s : Text) : unindent (' ' :: s) = unindent s :=
  unindent_cons (by decide) s

/-- Blanks of the line may be taken away before what the mode skips. -/
theorem strip_unindent (mode : Mode) (s : Text) : mode.strip (unindent s) = mode.strip s := by
  induction s with
  | nil => rfl
  | cons c s ih =>
      by_cases hc : isInlineBlank c = true
      · have hskips := mode.skips_of_isInlineBlank hc
        rw [unindent_cons hc, ih, strip, strip, List.dropWhile_cons_of_pos hskips]
      · have hstay : unindent (c :: s) = c :: s := List.dropWhile_cons_of_neg hc
        rw [hstay]

/-- A mode skips nothing before what it can scan. -/
theorem strip_of_scan {s : Text} {lexeme : Lexeme} (h : mode.scan s = .ok lexeme) :
    mode.strip s = s ∧ unindent s = s := by
  cases s with
  | nil => exact ⟨rfl, rfl⟩
  | cons c s =>
      have hskips := skips_of_scan h
      refine ⟨strip_eq_self (Text.begins_cons.mpr hskips), List.dropWhile_cons_of_neg fun hc => ?_⟩
      rw [mode.skips_of_isInlineBlank hc] at hskips
      cases hskips

/-- What is scanned whole is cut. -/
theorem Cuts.of_scan {kind : TokenKind} {x rest : Text}
    (h : mode.scan (x ++ rest) = .ok ⟨kind, x.length⟩) (hkind : kind.isComment = false) :
    mode.Cuts (x ++ rest) kind x rest :=
  ⟨(strip_of_scan h).2, h, hkind⟩

/-- Behind a space the same is cut. -/
theorem Cuts.space {s x rest : Text} {kind : TokenKind} (h : mode.Cuts s kind x rest) :
    mode.Cuts (' ' :: s) kind x rest :=
  ⟨(unindent_space s).trans h.split, h.scanned, h.plain⟩

/-- What is found depends on the text after the blanks only. -/
theorem Finds.congr {s t u : Text} {remarks : List Item} {ends : Bool} {lexeme : Lexeme}
    (h : mode.Finds s remarks ends lexeme u) (hstrip : mode.strip t = mode.strip s) :
    mode.Finds t remarks ends lexeme u := by
  cases h with
  | token scanned plain => exact .of_strip hstrip scanned plain
  | comment scanned isComment later =>
      rw [← hstrip] at scanned later ⊢
      exact .comment scanned isComment later

/-- At the end of a text its end is seen. -/
theorem cuts_nil (mode : Mode) : mode.Cuts [] .eof [] [] :=
  ⟨rfl, rfl, rfl⟩

end Mode

namespace Reader

/-- The reader stands at the text: what it has not consumed is the text, up to blanks of the line at
the front, and it has passed no comment. -/
structure At (r : Reader) (s : Text) : Prop where
  sound : r.Sound
  text : Mode.unindent r.text = Mode.unindent s
  comments : r.comments = []
  lineBreak : r.lineBreak = false

/-- A reader stands at the front of its text at first. -/
theorem At.ofText (s : Text) : (ofText s).At s :=
  ⟨sound_ofText s, rfl, rfl, rfl⟩

variable {r r' : Reader} {mode : Mode} {kind : TokenKind} {s t x rest : Text}

/-- Blanks of the line before the text do not matter. -/
theorem At.congr (h : r.At s) (hs : Mode.unindent s = Mode.unindent t) : r.At t :=
  ⟨h.sound, h.text.trans hs, h.comments, h.lineBreak⟩

/-- A reader that stands at a text has collected nothing. -/
theorem At.remarks (h : r.At s) : r.remarks = [] := by
  rw [Reader.remarks, h.comments]
  rfl

/-- The mode finds the token that it cuts from the text. -/
theorem At.finds (h : r.At s) (hcuts : mode.Cuts s kind x rest) :
    mode.Finds r.text [] false ⟨kind, x.length⟩ (x ++ rest) := by
  refine .of_strip ?_ hcuts.scanned hcuts.plain
  rw [← mode.strip_unindent, h.text, hcuts.split]
  exact (Mode.strip_of_scan hcuts.scanned).1

/-- What is seen from a reader at a text is what the mode cuts from the text. -/
theorem At.of_sees {token : Token} (h : r.At s) (hcuts : mode.Cuts s kind x rest)
    (hsees : Sees mode r token r') :
    (token.kind = kind ∧ token.text = x) ∧ r'.At s ∧ r'.text = x ++ rest := by
  obtain ⟨hkind, htext, hrest, hremarks, hbreak⟩ := hsees.of_finds (h.finds hcuts)
  rw [List.take_left] at htext
  refine ⟨⟨hkind, htext⟩, ⟨hsees.sound, ?_, ?_, ?_⟩, hrest⟩
  · rw [hrest, hcuts.split]
    exact (Mode.strip_of_scan hcuts.scanned).2
  · rw [h.remarks, List.append_nil] at hremarks
    exact List.map_eq_nil_iff.mp hremarks
  · rw [hbreak, h.lineBreak]
    rfl

/-- Consuming what was seen leaves the reader at what is left. -/
theorem At.consumed {token : Token} (h : r.At s) (hcuts : mode.Cuts s kind x rest)
    (hsees : Sees mode r token r') : r'.consumed.At rest := by
  obtain ⟨⟨_, htext⟩, hat, hrest⟩ := h.of_sees hcuts hsees
  refine ⟨hsees.sound.consumed, ?_, hat.comments, rfl⟩
  rw [hsees.shows.text_consumed hsees.sound, htext, hrest, List.drop_left]

end Reader

open Reader

/-- From each reader at the text the program succeeds, and `post` holds of what it returns and of
the reader after it. -/
def Reads {α : Type} (p : Parser α) (s : Text) (post : α → Reader → Prop) : Prop :=
  ∀ r : Reader, r.At s → Ends p r post fun _ _ => False

section
variable {α β : Type} {p : Parser α} {f : α → Parser β} {s t x rest : Text} {mode : Mode}
  {kind : TokenKind} {Q : α → Prop} {post post' : α → Reader → Prop} {goal : β → Reader → Prop}

/-- Less may be said of what is read. -/
theorem Reads.imp (h : Reads p s post) (hpost : ∀ a r, post a r → post' a r) : Reads p s post' :=
  fun r hr => (h r hr).imp hpost

/-- Sequencing: the rest reads on where the head stopped. -/
theorem Reads.bind (h : Reads p s fun a r => Q a ∧ r.At t) (hf : ∀ a, Q a → Reads (f a) t goal) :
    Reads (p >>= f) s goal := by
  intro r hr
  refine (h r hr).bind ?_
  intro a r' ha
  exact hf a ha.1 r' ha.2

/-- Blanks of the line before the text do not matter. -/
theorem Reads.congr (h : Reads p t post) (hs : Mode.unindent s = Mode.unindent t) :
    Reads p s post :=
  fun r hr => h r (hr.congr hs)

/-- Behind a space the same is read. -/
theorem Reads.space (h : Reads p s post) : Reads p (' ' :: s) post :=
  h.congr (Mode.unindent_space s)

/-- A value that is returned reads nothing. -/
theorem reads_pure {a : α} (h : Q a) : Reads (pure a : Parser α) s fun a r => Q a ∧ r.At s :=
  fun _ hr => ⟨h, hr⟩

/-! ## Tokens -/

/-- Looking ahead shows the token that the mode cuts. -/
theorem peek_reads (h : mode.Cuts s kind x rest) :
    Reads (peek mode) s fun token r => (token.kind = kind ∧ token.text = x) ∧ r.At s := by
  intro r hr
  obtain ⟨token, r', hpeek, hsees⟩ := peek_of_finds hr.sound (hr.finds h)
  obtain ⟨htoken, hat, _⟩ := hr.of_sees h hsees
  exact (ends_of_ok hpeek).mpr ⟨htoken, hat⟩

/-- On the line of what was consumed the token is seen as well. -/
theorem peekSameLine_reads (h : mode.Cuts s kind x rest) :
    Reads (peekSameLine mode) s fun seen r =>
      (∃ token : Token, seen = some token ∧ token.kind = kind ∧ token.text = x) ∧ r.At s := by
  intro r hr
  refine (peek_reads h r hr).bind ?_
  rintro token r' ⟨htoken, hat⟩
  refine ends_bind.mpr (ends_get.mpr ?_)
  rw [hat.lineBreak]
  exact ⟨⟨token, rfl, htoken⟩, hat⟩

/-- The token that the mode cuts is consumed. -/
theorem advance_reads (h : mode.Cuts s kind x rest) (hkind : kind ≠ .eof) :
    Reads (advance mode) s fun token r => (token.kind = kind ∧ token.text = x) ∧ r.At rest := by
  intro r hr
  obtain ⟨token, r', hpeek, hsees⟩ := peek_of_finds hr.sound (hr.finds h)
  obtain ⟨htoken, _, _⟩ := hr.of_sees h hsees
  have hplain : token.kind ≠ .eof := by rwa [htoken.1]
  unfold advance
  rw [ends_congr (bind_ok hpeek), if_pos hplain]
  exact ⟨htoken, hr.consumed h hsees⟩

/-- Whether a token of this kind and text is a mark. -/
theorem isPunct_eq {token : Token} (h : token.kind = kind ∧ token.text = x) (mark : Char) :
    token.isPunct mark = (kind == .punct && x == [mark]) := by
  rw [Token.isPunct, Token.isPunctOf, h.1, h.2, List.contains_cons, List.contains_nil, Bool.or_false]

/-- A mark that is expected is consumed. -/
theorem expect_reads {mark : Char} (h : mode.Cuts s .punct [mark] rest) :
    Reads (expect mode [mark]) s fun _ r => True ∧ r.At rest := by
  unfold expect
  refine (peek_reads h).bind fun token htoken => ?_
  have hmark : token.isPunctOf [[mark]] = true := by
    have := isPunct_eq htoken mark
    simpa [Token.isPunct] using this
  rw [if_pos hmark]
  exact (advance_reads h (by decide)).imp fun _ _ hrest => ⟨trivial, hrest.2⟩

/-! ## Repetitions -/

/-- What holds before a text, and before each value where it holds after it, holds before a row of
values. -/
theorem of_flatMap {γ : Type} {source : γ → Text} {E : Text → Prop} {u : Text} {values : List γ}
    (hE : ∀ value ∈ values, ∀ rest, E rest → E (source value ++ rest)) (hu : E u) :
    E (values.flatMap source ++ u) := by
  induction values with
  | nil => exact hu
  | cons value values ih =>
      rw [List.forall_mem_cons] at hE
      rw [List.flatMap_cons, List.append_assoc]
      exact hE.1 _ (ih hE.2)

/-- A step that reads the first of the values ahead, and gives nothing when there is none, reads all
of them when it is repeated; `T` is the text of the values ahead.  The induction is on the values;
`hspec` is what makes every turn consume something, so that the turns do not run out. -/
theorem many_reads_from {step : Parser (Option α)} {P : α → Prop} {γ δ : Type} {T : List γ → Text}
    {K : α → δ} {L : γ → δ} {values : List γ}
    (hspec : ∀ r : Reader, r.Sound →
      Ends step r (fun found r' => r.Keeps r' ∧ ∀ a, found = some a → r.Passes r' ∧ P a) Local)
    (hstop : Reads step (T []) fun found r => found = none ∧ r.At (T []))
    (hstep : ∀ value others, value :: others <:+ values → Reads step (T (value :: others))
      fun found r => (∃ a, found = some a ∧ K a = L value) ∧ r.At (T others)) :
    Reads (many step) (T values) fun found r => found.map K = values.map L ∧ r.At (T []) := by
  have hturns : ∀ (limit : Nat) (r : Reader), r.At (T values) → r.ahead < limit →
      Ends (manyUpTo step limit) r
        (fun found r => found.map K = values.map L ∧ r.At (T [])) fun _ _ => False := by
    induction values with
    | nil =>
        intro limit r hr hlimit
        cases limit with
        | zero => omega
        | succ limit =>
            unfold manyUpTo
            refine (hstop r hr).bind ?_
            rintro found r' ⟨rfl, hat⟩
            exact ⟨rfl, hat⟩
    | cons value values ih =>
        intro limit r hr hlimit
        cases limit with
        | zero => omega
        | succ limit =>
            unfold manyUpTo
            have hhead := hstep value values (List.suffix_refl _) r hr
            refine (hhead.and (hspec r hr.sound)).bind ?_
            rintro found r' ⟨⟨⟨a, rfl, hkey⟩, hat⟩, _, hpasses⟩
            have hless := (hpasses a rfl).1.lt
            refine (ih ?_ limit r' hat (by omega)).bind ?_
            · intro later others hsuffix
              exact hstep later others (hsuffix.trans (List.suffix_cons _ _))
            rintro others r'' ⟨hothers, hlast⟩
            exact ⟨by rw [List.map_cons, List.map_cons, hkey, hothers], hlast⟩
  intro r hr
  exact hturns _ r hr (Nat.lt_succ_self _)

/-- The same for values each of which has a text of its own, before a text at which the step gives
nothing; `E` is what has to hold of what follows a value. -/
theorem many_reads {step : Parser (Option α)} {P : α → Prop} {γ δ : Type} {source : γ → Text}
    {K : α → δ} {L : γ → δ} {E : Text → Prop} {u : Text} {values : List γ}
    (hspec : ∀ r : Reader, r.Sound →
      Ends step r (fun found r' => r.Keeps r' ∧ ∀ a, found = some a → r.Passes r' ∧ P a) Local)
    (hu : E u) (hE : ∀ value ∈ values, ∀ rest, E rest → E (source value ++ rest))
    (hstop : Reads step u fun found r => found = none ∧ r.At u)
    (hstep : ∀ value ∈ values, ∀ rest, E rest → Reads step (source value ++ rest)
      fun found r => (∃ a, found = some a ∧ K a = L value) ∧ r.At rest) :
    Reads (many step) (values.flatMap source ++ u)
      fun found r => found.map K = values.map L ∧ r.At u := by
  refine many_reads_from (T := fun values => values.flatMap source ++ u) hspec hstop ?_
  intro value others hsuffix
  have hmem := hsuffix.subset
  rw [List.flatMap_cons, List.append_assoc]
  refine hstep value (hmem List.mem_cons_self) _ (of_flatMap (fun later hlater => ?_) hu)
  exact hE later (hmem (List.mem_cons_of_mem _ hlater))

end

end DiagramText
