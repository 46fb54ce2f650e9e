import DiagramText.Proofs.Lexeme.Fault
import DiagramText.Proofs.Reader.Threads

/-!
# Faults that the source bears out

A fault points at something of the source: at a token that was read there, or at
a place where none can be (`Fault.Founded`).  So the span of a syntax error lies
within the source (`SyntaxError.Founded.within`), its alternatives have names,
and an integer is rejected only where as many digits stand in the source
(`Overlong`).

`Reader.Founds` says of a program that all faults it can come to are so founded,
and what is known of its values.  It is closed under the ways in which programs
are put together.
-/

namespace DiagramText

variable {source : Text}

/-! ## What a fault points at -/

/-- The token was read in the mode at some place of the source. -/
def Token.ReadFrom (source : Text) (mode : Mode) (token : Token) : Prop :=
  ∃ cursor : Cursor, cursor.On source ∧ cursor.token mode = .ok token

namespace Token.ReadFrom

variable {mode : Mode} {token : Token}

/-- A token that was read in the source is cut from it. -/
theorem cutFrom (h : token.ReadFrom source mode) : token.CutFrom source := by
  obtain ⟨_, hon, htoken⟩ := h
  exact (hon.cutFrom htoken).1

/-- A token that was read in the source lies within it. -/
theorem within (h : token.ReadFrom source mode) : token.span.Within source := by
  apply h.cutFrom.within
  obtain ⟨_, hon, htoken⟩ := h
  have hle := hon.le
  rw [(hon.cutFrom htoken).2.1]
  omega

/-- A token that was read in the source is spelled as its mode allows. -/
theorem spells (h : token.ReadFrom source mode) : mode.Spells token.kind token.text := by
  obtain ⟨_, _, htoken⟩ := h
  exact spells_of_token htoken

end Token.ReadFrom

/-- An opening brace was read at the span. -/
def Span.IsBrace (source : Text) (span : Span) : Prop :=
  ∃ token : Token, token.ReadFrom source .label ∧ token.isPunct '\x7b' = true ∧ token.span = span

/-- A brace of the source lies within it. -/
theorem Span.IsBrace.within {span : Span} (h : span.IsBrace source) : span.Within source := by
  obtain ⟨_, htoken, _, rfl⟩ := h
  exact htoken.within

/-- No token can be cut where the error is. -/
def LexError.Founded (source : Text) (error : LexError) : Prop :=
  ∃ (cursor : Cursor) (mode : Mode), cursor.On source ∧ cursor.token mode = .error error

/-- What a lexical error points at lies within the source. -/
theorem LexError.Founded.within {error : LexError} (h : error.Founded source) :
    error.span.Within source := by
  obtain ⟨cursor, mode, hon, htoken⟩ := h
  unfold Cursor.token at htoken
  split at htoken
  · cases htoken
  · next fault hscan =>
      obtain rfl := Except.error.inj htoken
      have hextent := Mode.extent_le_length hscan
      have hon' := (hon.advance hextent).le
      rw [Cursor.offset_advance] at hon'
      refine ⟨cursor.position.offset, cursor.position.offset + fault.extent, by omega, hon', ?_⟩
      rw [Cursor.spanOf, Span.ofOffsets, ← hon.position]
      rfl

/-- The error points at a token that was read from the source, or at a place where none can be cut, and
the alternatives that it names are not empty. -/
def SyntaxError.Founded (source : Text) : SyntaxError → Prop
  | .lexical error => error.Founded source
  | .unexpected wanted others found =>
    (∀ form ∈ wanted :: others, form ≠ []) ∧ ∃ mode, found.ReadFrom source mode
  | .unclosedBlock brace => brace.IsBrace source
  | .badReference _ found => found.ReadFrom source .declaration
  | .badSignature _ span => ∃ token : Token, token.ReadFrom source .arguments ∧ token.span = span
  | .tooDeep _ span => span.IsBrace source

/-- The span of an error that is founded lies within the source. -/
theorem SyntaxError.Founded.within {error : SyntaxError} (h : error.Founded source) :
    error.span.Within source := by
  cases error with
  | lexical error =>
      have herror : error.Founded source := h
      exact herror.within
  | unexpected wanted others found =>
      obtain ⟨_, _, hfound⟩ := h
      exact hfound.within
  | unclosedBlock brace =>
      have hbrace : brace.IsBrace source := h
      exact hbrace.within
  | badReference fault found =>
      have hfound : found.ReadFrom source .declaration := h
      exact hfound.within
  | badSignature fault span =>
      obtain ⟨token, htoken, rfl⟩ := h
      exact htoken.within
  | tooDeep limit span =>
      have hbrace : span.IsBrace source := h
      exact hbrace.within

/-- An integer with so many digits stands in the source: a numeral without a point where a label may
stand, or the digits between the brackets of a reference. -/
inductive Overlong (source : Text) : (digits : Nat) → Prop
  | label {token : Token} (read : token.ReadFrom source .label) (kind : token.kind = .number)
      (digits : (Numeral.unsigned token.text).all Char.isDigit = true) :
      Overlong source (Numeral.unsigned token.text).length
  | index {opening token closing : Token} (opens : opening.ReadFrom source .declaration)
      (opened : opening.isPunct '[' = true) (read : token.ReadFrom source .declaration)
      (digits : token.text.all Char.isDigit = true) (closes : closing.ReadFrom source .declaration)
      (closed : closing.isPunct ']' = true)
      (row : Span.Row opening.span.start [opening.span, token.span, closing.span] closing.span.stop) :
      Overlong source token.text.length

/-- What the fault says of the source is so.  That a repetition consumes nothing says nothing of the
source. -/
def Fault.Founded (source : Text) : Fault → Prop
  | .malformed error => error.Founded source
  | .numeralTooLong digits => Numeral.digitLimit < digits ∧ Overlong source digits
  | .stalled => True

namespace Reader

variable {r : Reader} {mode : Mode} {token : Token}

/-- The token ahead was read in the source. -/
theorem Shows.readFrom (h : r.Shows mode token) (hr : r.Sound) (hplaced : r.Placed source) :
    token.ReadFrom source mode :=
  ⟨r.front, hplaced, h.token_front hr⟩

/-- A token that is spotted was read in the source. -/
theorem Spots.readFrom {r' : Reader} (h : Spots source mode r token r') : token.ReadFrom source mode :=
  h.shows.readFrom h.sound h.skims.placed

/-! ## Programs -/

/-- Where the program ends well it is still on the source, and its value is as given; where it fails the
fault is founded. -/
def Founds (source : Text) {α : Type} (p : Parser α) (post : α → Prop) : Prop :=
  ∀ r : Reader, r.Sound → r.Placed source →
    Ends p r (fun a r' => (r'.Sound ∧ r'.Placed source) ∧ post a) fun fault _ => fault.Founded source

/-- Reading on to a token fails only where none can be cut. -/
theorem fillUpTo_founded (mode : Mode) (limit : Nat) (r : Reader) (hr : r.lookahead = none)
    (hplaced : r.Placed source) :
    Ends (fillUpTo mode limit) r (fun _ _ => True) fun fault _ => fault.Founded source := by
  refine fillUpTo_along (Placed source) ?_ ?_ ?_ ?_ limit r hr hplaced
  · exact fun _ _ => trivial
  · exact fun r error hahead hplaced herror => ⟨_, mode, on_skip hahead hplaced mode, herror⟩
  · exact fun r token hahead hplaced htoken _ => (past_skims hahead hplaced htoken).placed
  · exact fun _ _ _ _ _ _ => trivial

/-- Looking ahead spots a token, or fails where none can be cut. -/
theorem peek_founded (hr : r.Sound) (hplaced : r.Placed source) (mode : Mode) :
    Ends (peek mode) r (Spots source mode r) fun fault _ => fault.Founded source := by
  have hfails : Ends (peek mode) r (fun _ _ => True) fun fault _ => fault.Founded source := by
    rw [ends_peek hr]
    exact fillUpTo_founded mode _ r.rewound rfl hplaced
  exact (hfails.and (peek_spots hr hplaced mode)).imp fun _ _ h => h.2

/-- A mark that has to stand ahead is passed before what follows, or the token ahead is at fault. -/
theorem ends_mark_founded {α : Type} {mark : Char} {error : Token → SyntaxError} {k : Token → Parser α}
    {post : α → Reader → Prop} (hr : r.Sound) (hplaced : r.Placed source)
    (herror : ∀ token, token.ReadFrom source mode → (error token).Founded source)
    (hk : ∀ token r', token.ReadFrom source mode → token.isPunct mark = true →
      Threads source r [token.span] r' →
      Ends (k token) r' post fun fault _ => fault.Founded source) :
    Ends (peek mode >>= fun token =>
      if (!token.isPunct mark) = true then fail (error token) >>= fun (_ : PUnit) =>
        advance mode >>= fun _ => k token
      else advance mode >>= fun _ => k token) r post fun fault _ => fault.Founded source := by
  apply (peek_founded hr hplaced mode).bind
  intro token r₁ h
  apply ends_guard
  · exact fun _ => herror token h.readFrom
  · intro hmark
    have hmark : token.isPunct mark = true := by simpa using hmark
    refine ends_bind.mpr (h.shows.advance_spec (Token.kind_ne_eof_of_isPunct hmark) ?_)
    exact hk token _ h.readFrom hmark h.threads

namespace Founds

variable {α β : Type} {p q : Parser α} {post : α → Prop}

theorem pure {a : α} (h : post a) : Founds source (Pure.pure a) post :=
  fun _ hr hplaced => ⟨⟨hr, hplaced⟩, h⟩

theorem throw {fault : Fault} (h : fault.Founded source) : Founds source (throw fault : Parser α) post :=
  fun _ _ _ => h

/-- An error that is founded may be thrown. -/
theorem fail {error : SyntaxError} (h : error.Founded source) :
    Founds source (fail error : Parser α) post :=
  .throw h

/-- Sequencing: what the head gives is known to the rest. -/
theorem bind {f : α → Parser β} {later : β → Prop} (h : Founds source p post)
    (hf : ∀ a, post a → Founds source (f a) later) : Founds source (p >>= f) later := by
  intro r hr hplaced
  apply (h r hr hplaced).bind
  intro a r' ⟨⟨hr', hplaced'⟩, ha⟩
  exact hf a ha r' hr' hplaced'

/-- Less may be said of what a program hands over. -/
theorem imp {post' : α → Prop} (h : Founds source p post) (hpost : ∀ a, post a → post' a) :
    Founds source p post' :=
  fun r hr hplaced => (h r hr hplaced).imp fun a _ ha => ⟨ha.1, hpost a ha.2⟩

/-- A choice is founded if both of its branches are. -/
theorem ite {c : Prop} [Decidable c] (hp : c → Founds source p post)
    (hq : ¬ c → Founds source q post) : Founds source (if c then p else q) post := by
  by_cases hc : c
  · rw [if_pos hc]
    exact hp hc
  · rw [if_neg hc]
    exact hq hc

/-- A check that fails with a syntax error, and what follows it where it does not. -/
theorem guard {c : Prop} [Decidable c] {error : SyntaxError} {k : PUnit → Parser α}
    (herror : error.Founded source) (hk : ¬ c → Founds source (k ⟨⟩) post) :
    Founds source (if c then Reader.fail error >>= k else k ⟨⟩) post := by
  have hfail : Founds source (Reader.fail error : Parser PUnit) fun _ => False := fail herror
  exact ite (fun _ => hfail.bind fun _ h => h.elim) hk

/-- A token that is looked at was read in the source. -/
theorem peek (mode : Mode) : Founds source (peek mode) (·.ReadFrom source mode) := by
  intro r hr hplaced
  apply (peek_founded hr hplaced mode).imp
  intro token r' h
  exact ⟨⟨h.sound, h.skims.placed⟩, h.readFrom⟩

/-- Whether a line has ended may be asked. -/
theorem line {f : Bool → Parser α} (h : ∀ ended, Founds source (f ended) post) :
    Founds source (get >>= fun reader => f reader.lineBreak) post :=
  fun r => h r.lineBreak r

/-- A token that is seen on the same line was read in the source. -/
theorem peekSameLine (mode : Mode) :
    Founds source (peekSameLine mode) fun seen => ∀ token, seen = some token →
      token.ReadFrom source mode := by
  apply (peek mode).bind
  intro token htoken
  have hline : ∀ ended : Bool, Founds source
      (Pure.pure (if ended then none else some token) : Parser (Option Token))
      fun seen => ∀ token, seen = some token → token.ReadFrom source mode := by
    intro ended
    apply pure
    intro found hfound
    split at hfound
    · cases hfound
    · exact Option.some.inj hfound ▸ htoken
  exact line hline

/-- A token that is consumed was read in the source. -/
theorem advance (mode : Mode) : Founds source (advance mode) (·.ReadFrom source mode) := by
  intro r hr hplaced
  unfold Reader.advance
  apply (peek_founded hr hplaced mode).bind
  intro token r' h
  split
  · rw [ends_bind, ends_modify, ends_pure]
    exact ⟨⟨h.moves_consumed.sound, h.moves_consumed.placed⟩, h.readFrom⟩
  · exact ⟨⟨h.sound, h.skims.placed⟩, h.readFrom⟩

/-- An expected mark was read in the source, and another token in its place, too. -/
theorem expect (mode : Mode) (mark : Char) :
    Founds source (expect mode [mark]) fun token =>
      token.ReadFrom source mode ∧ token.isPunct mark = true := by
  intro r hr hplaced
  unfold Reader.expect
  apply (peek_founded hr hplaced mode).bind
  intro token r₁ h
  refine ends_ite.mpr ⟨fun hmark => ?_, fun _ => ?_⟩
  · refine h.shows.advance_spec (Token.kind_ne_eof_of_isPunct hmark) ?_
    exact ⟨⟨h.moves_consumed.sound, h.moves_consumed.placed⟩, h.readFrom, hmark⟩
  · refine ⟨?_, mode, h.readFrom⟩
    rw [List.forall_mem_singleton]
    simp [Text.display]

/-- A repetition founds what its step founds.  The induction is on the turns. -/
theorem many {step : Parser (Option α)}
    (hstep : Founds source step fun found => ∀ a, found = some a → post a) :
    Founds source (many step) fun found => ∀ a ∈ found, post a := by
  have hupTo : ∀ limit, Founds source (manyUpTo step limit) fun found => ∀ a ∈ found, post a := by
    intro limit
    induction limit with
    | zero => exact .throw trivial
    | succ limit ih =>
        apply hstep.bind
        intro found hfound
        cases found with
        | none => exact .pure (by simp)
        | some a =>
            apply ih.bind
            intro others hothers
            exact .pure (List.forall_mem_cons.mpr ⟨hfound a rfl, hothers⟩)
  exact fun r => hupTo _ r

/-- Where nothing is known of the values of a step, nothing is known of those of its repetition. -/
theorem many_any {step : Parser (Option α)} (hstep : Founds source step fun _ => True) :
    Founds source (Reader.many step) fun _ => True := by
  have hall : Founds source step fun found => ∀ a, found = some a → True :=
    hstep.imp fun _ _ _ _ => trivial
  exact hall.many.imp fun _ _ => trivial

end Founds

end Reader

end DiagramText
