import DiagramText.Proofs.Grammar.Written
import DiagramText.Proofs.Lexeme.RespellLabel
import DiagramText.Proofs.Reader.Trails
import DiagramText.Tree.Node

/-!
# The spans of what the grammar reads

Each program of the grammar gives what it reads a span that begins where the
reader had a token ahead and reaches up to where the reader is afterwards
(`Grammar.Ranges`): a span is put together from the first and the last of its
tokens, and what stands in between lies in it whatever it is.

A statement goes on to its end, past the comments that trail it and the
terminator, if there is one (`Grammar.Stretches`).  What ends it stands behind
its span: a terminator, a comment that ends its line, or nothing but a closing
brace or the end of the source (`Reader.Rests`).  In the last case looking on
from its span comes to the end, past comments only (`Grammar.Unended`).
-/

namespace DiagramText

open Reader

namespace Grammar

variable {source : Text} {r r' r'' : Reader}

/-- The span begins where the one reader has a token ahead, if it has one, and reaches up to the other,
with nothing but comments trailing it. -/
structure Ranges (source : Text) (r : Reader) (span : Span) (r' : Reader) : Prop
    extends Attains source r span r' where
  start : ∀ token, r.Shows .declaration token → span.start = r.place

namespace Ranges

/-- What a look passes over trails the span that was read. -/
theorem drifts {span : Span} (h : Ranges source r span r') (hdrifts : Drifts source r' r'') :
    Ranges source r span r'' :=
  ⟨h.toAttains.drifts hdrifts, h.start⟩

/-- A span is covered by its first part up to what the last part reaches. -/
theorem cover {first last : Span} (h : Ranges source r first r')
    (hlast : Attains source r' last r'') : Ranges source r (first.cover last) r'' :=
  ⟨h.toAttains.cover hlast, h.start⟩

/-- A span is covered by its first part up to a last part that may be the first itself. -/
theorem cover_of_le {first last : Span} (h : Ranges source r first r')
    (hlast : first.stop ≤ last.stop ∧ Attains source r last r'') :
    Ranges source r (first.cover last) r'' :=
  ⟨hlast.2.cover_of_le hlast.1, h.start⟩

end Ranges

/-- A token that is sighted and consumed has its own span. -/
theorem ranges_of_sights {token : Token} (h : Sights source .declaration r token r') :
    Ranges source r token.span r'.consumed :=
  ⟨h.attains, fun _ hseen => h.start hseen⟩

/-! ## Names, expressions and references -/

/-- The part of a name has the span of its token. -/
theorem namePart_ranges (hr : r.Sound) (hplaced : r.Placed source) :
    Ends namePart r (fun part r' => Ranges source r part.span r') fun _ _ => True := by
  unfold namePart
  refine (peek_sights hr hplaced .declaration).bind fun token r₁ h => ?_
  split
  · next hkind =>
      have hkind' : token.kind ≠ .eof := by simp [hkind]
      exact ends_bind.mpr (h.shows.advance_spec hkind' (ranges_of_sights h))
  · next hkind =>
      have hkind' : token.kind ≠ .eof := by simp [hkind]
      exact ends_bind.mpr (h.shows.advance_spec hkind' (ranges_of_sights h))
  · trivial

/-- A field reaches up to the reader, or only a look is taken. -/
theorem fieldStep_gains (hr : r.Sound) (hplaced : r.Placed source) :
    Ends fieldStep r (Gains source Identifier.span r) fun _ _ => True := by
  unfold fieldStep
  refine (peekSameLine_sights hr hplaced .declaration).bind ?_
  rintro seen r₁ ⟨token, h, hseen⟩
  refine ends_ite.mpr ⟨fun hmark => ?_, fun _ => h.drifts (.inl rfl)⟩
  obtain ⟨found, rfl, hdot⟩ := isMark_eq_true.mp hmark
  obtain rfl := hseen found rfl
  have hmoves := h.moves_consumed
  refine ends_bind.mpr (h.shows.advance_spec (Token.kind_ne_eof_of_isPunct hdot) ?_)
  refine (namePart_ranges hmoves.sound hmoves.placed).bind fun part r₂ hpart => ?_
  exact hmoves.attains hpart.toAttains

/-- The last of the fields reaches up to the reader, or what did so before if there is none. -/
theorem fields_attains {span : Span} (h : Attains source r span r') :
    Ends fields r' (fun found r'' => span.stop ≤ (lastSpan span found).stop ∧
      Attains source r (lastSpan span found) r'') fun _ _ => True :=
  many_attains Identifier.span (fun _ => fieldStep_gains) h

/-- A name reaches from its first part to the last of its fields. -/
theorem identifier_ranges (hr : r.Sound) (hplaced : r.Placed source) :
    Ends identifier r (fun name r' => Ranges source r name.span r') fun _ _ => True := by
  unfold identifier
  refine (namePart_ranges hr hplaced).bind fun head r₁ hhead => ?_
  exact (fields_attains hhead.toAttains).bind fun fields r₂ hlast => hhead.cover_of_le hlast

/-- A connection with the name it leads to reaches up to the reader, or only a look is taken. -/
theorem hopStep_gains (hr : r.Sound) (hplaced : r.Placed source) :
    Ends hopStep r (Gains source (fun hop => hop.2.span) r) fun _ _ => True := by
  unfold hopStep
  refine (peekSameLine_sights hr hplaced .declaration).bind ?_
  rintro seen r₁ ⟨token, h, hseen⟩
  cases seen with
  | none => exact h.drifts (.inl rfl)
  | some found =>
      obtain rfl := hseen found rfl
      unfold hopFrom
      refine ends_ite.mpr ⟨fun hconnection => ?_, fun _ => h.drifts (.inl rfl)⟩
      have hkind : found.kind ≠ .eof := by simp [hconnection]
      have hmoves := h.moves_consumed
      refine ends_bind.mpr (h.shows.advance_spec hkind ?_)
      refine (identifier_ranges hmoves.sound hmoves.placed).bind fun name r₂ hname => ?_
      exact hmoves.attains hname.toAttains

/-- An expression reaches from its first name to the last one. -/
theorem expressionFrom_ranges {first : Identifier} (hfirst : Ranges source r first.span r') :
    Ends (expressionFrom first) r' (fun expression r'' => Ranges source r expression.span r'')
      fun _ _ => True := by
  rw [expressionFrom_eq]
  refine (many_attains (fun hop => hop.2.span) (fun _ => hopStep_gains) hfirst.toAttains).bind ?_
  intro hops r₁ hlast
  refine hfirst.cover_of_le ?_
  rw [lastSpan, List.getLast?_map, Option.map_map]
  exact hlast

/-- An expression begins where the reader stands and reaches up to where it is left. -/
theorem expression_ranges (hr : r.Sound) (hplaced : r.Placed source) :
    Ends expression r (fun expression r' => Ranges source r expression.span r')
      fun _ _ => True := by
  unfold expression
  exact (identifier_ranges hr hplaced).bind fun first r₁ hfirst => expressionFrom_ranges hfirst

/-- A reference reaches from its parenthesis to the last of its marks and fields. -/
theorem reference_ranges (hr : r.Sound) (hplaced : r.Placed source) :
    Ends reference r (fun reference r' => Ranges source r reference.span r')
      fun _ _ => True := by
  unfold reference
  refine (expect_sights hr hplaced .declaration '(').bind ?_
  rintro opening _ ⟨r₁, h₁, _, rfl⟩
  have hopening := ranges_of_sights h₁
  refine (expression_ranges hopening.moves.sound hopening.moves.placed).bind fun expression r₂ h₂ => ?_
  refine ends_mark_attains h₂.moves.sound h₂.moves.placed fun _ r₃ h₃ => ?_
  refine ends_mark_attains h₃.moves.sound h₃.moves.placed fun _ r₄ h₄ => ?_
  refine (peek_sights h₄.moves.sound h₄.moves.placed .declaration).bind fun index r₅ h₅ => ?_
  refine ends_guard (fun _ => trivial) fun hdigits => ?_
  have hkind : index.kind ≠ .eof := by simp [(Token.of_not_badIndex hdigits).1]
  refine ends_bind.mpr (h₅.shows.advance_spec hkind ?_)
  have h₆ := h₅.moves_consumed
  refine ends_mark_attains h₆.sound h₆.placed fun closing r₇ h₇ => ?_
  have hmoves := h₂.moves.trans (h₃.moves.trans (h₄.moves.trans h₆))
  refine (fields_attains (hmoves.attains h₇)).bind fun fields r₈ hlast => ?_
  split
  · trivial
  · exact hopening.cover hlast.2

/-! ## Labels -/

/-- A constraint moves the reader on. -/
theorem constraintName_moves (hr : r.Sound) (hplaced : r.Placed source) (others : List Text) :
    Ends (constraintName others) r (fun _ r' => Moves source r r') fun _ _ => True := by
  unfold constraintName
  refine (peek_spots hr hplaced .constraints).bind fun token r₁ h₁ => ?_
  refine ends_guard (fun _ => trivial) fun hident => ?_
  have hkind : token.kind ≠ .eof := by
    have hident : token.kind = .ident := by simpa using hident
    simp [hident]
  have h₂ := h₁.moves_consumed
  refine ends_bind.mpr (h₁.shows.advance_spec hkind ?_)
  refine (peek_spots h₂.sound h₂.placed .constraints).bind fun next r₃ h₃ => ?_
  refine ends_ite.mpr ⟨fun hmark => ?_, fun _ => h₂.trans h₃.moves⟩
  exact ends_bind.mpr (h₃.shows.advance_spec (Token.kind_ne_eof_of_isPunct hmark)
    (h₂.trans h₃.moves_consumed))

/-- A further constraint moves the reader on. -/
theorem constraintStep_moves (hr : r.Sound) (hplaced : r.Placed source) :
    Ends constraintStep r (fun _ r' => Moves source r r') fun _ _ => True := by
  unfold constraintStep
  refine (peek_spots hr hplaced .constraints).bind fun token r₁ h => ?_
  refine ends_ite.mpr ⟨fun _ => h.moves, fun _ => ?_⟩
  exact (constraintName_moves h.sound h.skims.placed _).bind fun _ _ hname => h.moves.trans hname

/-- Constraints reach from bracket to bracket. -/
theorem constraints_attains (hr : r.Sound) (hplaced : r.Placed source) :
    Ends constraints r (fun label r' => Attains source r label.span r') fun _ _ => True := by
  rw [constraints_eq]
  refine (expect_sights hr hplaced .label '[').bind ?_
  rintro opening _ ⟨r₁, h₁, _, rfl⟩
  have hopening := h₁.attains
  refine (constraintName_moves hopening.moves.sound hopening.moves.placed []).bind fun first r₂ h₂ => ?_
  refine (many_moves (fun _ => constraintStep_moves) h₂.sound h₂.placed).bind fun others r₃ h₃ => ?_
  refine (advance_attains h₃.sound h₃.placed .constraints).bind fun closing r₄ hclosing => ?_
  exact hopening.cover ((h₂.trans h₃).attains hclosing)

/-- A label reaches up to the reader; where there is none only comments were passed. -/
theorem label_gains (hr : r.Sound) (hplaced : r.Placed source) :
    Ends label r (Gains source Label.span r) fun _ _ => True := by
  unfold label
  refine (peek_sights hr hplaced .label).bind fun token r₁ h => ?_
  have htoken : ∀ {label : Label}, label.span = token.span →
      Gains source Label.span r (some label) r₁.consumed := by
    intro label hspan
    change Attains source r label.span r₁.consumed
    rw [hspan]
    exact h.attains
  split
  · next hkind =>
      have hkind' : token.kind ≠ .eof := by simp [hkind]
      refine ends_bind.mpr (h.shows.advance_spec hkind' ?_)
      split
      · exact htoken rfl
      · trivial
      · next hnone =>
          obtain ⟨parts, hparts, _⟩ := CodeParts.of_spells (hkind ▸ h.shows.spells h.sound)
          cases hnone.symm.trans hparts
  · next hkind =>
      have hkind' : token.kind ≠ .eof := by simp [hkind]
      refine ends_bind.mpr (h.shows.advance_spec hkind' ?_)
      refine ((numberValue_spec token.text _).mono (fun _ _ hvalue => hvalue.1) fun _ _ _ => trivial).bind ?_
      rintro value r₂ rfl
      exact htoken rfl
  · next hkind =>
      exact ends_bind.mpr (h.shows.advance_spec (by simp [hkind]) (htoken rfl))
  · next hkind =>
      exact ends_bind.mpr (h.shows.advance_spec (by simp [hkind]) (htoken rfl))
  · next hkind =>
      exact ends_bind.mpr (h.shows.advance_spec (by simp [hkind]) (htoken rfl))
  · refine ends_ite.mpr ⟨fun _ => ?_, fun _ => h.drifts (.inr rfl)⟩
    exact (constraints_attains h.sound h.skims.placed).bind fun label r₂ hlabel => h.moves.attains hlabel

/-! ## Methods -/

/-- A word of a list moves the reader on. -/
theorem wordStep_moves (hr : r.Sound) (hplaced : r.Placed source) :
    Ends wordStep r (fun _ r' => Moves source r r') fun _ _ => True := by
  unfold wordStep
  refine (peek_spots hr hplaced .arguments).bind fun token r₁ h => ?_
  refine ends_ite.mpr ⟨fun _ => h.moves, fun _ => ends_ite.mpr ⟨fun _ => ?_, fun _ => trivial⟩⟩
  exact (advance_attains h.sound h.skims.placed .arguments).bind fun _ _ hword =>
    h.moves.trans hword.moves

/-- A list of arguments ends with the span of its closing parenthesis. -/
theorem argumentList_attains (hr : r.Sound) (hplaced : r.Placed source) :
    Ends argumentList r (fun found r' => Attains source r found.2.span r') fun _ _ => True := by
  rw [argumentList_eq]
  refine (expect_spots hr hplaced .arguments '(').bind ?_
  rintro opening _ ⟨r₁, h₁, _, rfl⟩
  have h₁ := h₁.moves_consumed
  refine (many_moves (fun _ => wordStep_moves) h₁.sound h₁.placed).bind fun words r₂ h₂ => ?_
  refine (advance_attains h₂.sound h₂.placed .arguments).bind fun closing r₃ hclosing => ?_
  split
  · exact (h₁.trans h₂).attains hclosing
  · trivial

/-- A method reaches from its name to the last closing parenthesis. -/
theorem methodFrom_ranges {name : Identifier} (hname : Ranges source r name.span r') :
    Ends (methodFrom name) r' (fun method r'' => Ranges source r method.span r'')
      fun _ _ => True := by
  unfold methodFrom
  refine (argumentList_attains hname.moves.sound hname.moves.placed).bind ?_
  rintro ⟨arguments, closing⟩ r₁ hclosing
  have hmoves := hclosing.moves
  refine (peekSameLine_sights hmoves.sound hmoves.placed .declaration).bind ?_
  rintro seen r₂ ⟨token, h₂, hseen⟩
  refine ends_ite.mpr ⟨fun hmark => ?_, fun _ => ?_⟩
  · obtain ⟨found, rfl, hcolon⟩ := isMark_eq_true.mp hmark
    obtain rfl := hseen found rfl
    have h₃ := h₂.moves_consumed
    refine ends_bind.mpr (h₂.shows.advance_spec (Token.kind_ne_eof_of_isPunct hcolon) ?_)
    refine (argumentList_attains h₃.sound h₃.placed).bind ?_
    rintro ⟨returns, closing⟩ r₄ hreturns
    exact hname.cover ((hmoves.trans h₃).attains hreturns)
  · exact hname.cover (hclosing.drifts (h₂.drifts (.inl rfl)))

/-! ## Statements -/

/-- The end of a statement is passed over. -/
theorem finish_skims (hr : r.Sound) (hplaced : r.Placed source) (wanted : Text)
    (others : List Text) :
    Ends (finish wanted others) r (fun _ r' => r'.Sound ∧ Skims source r r') fun _ _ => True := by
  unfold finish
  refine (peek_spots hr hplaced .declaration).bind fun token r₁ h => ?_
  refine ends_ite.mpr ⟨fun hterminator => ?_, fun _ => ?_⟩
  · have hskims := h.skims.trans (h.shows.skims_consumed h.sound h.skims.placed hterminator)
    exact ends_bind.mpr (h.shows.advance_spec (by simp [hterminator]) ⟨h.sound.consumed, hskims⟩)
  · refine ends_bind.mpr (ends_get.mpr (ends_ite.mpr ⟨fun _ => trivial, fun _ => ?_⟩))
    exact ⟨h.sound, h.skims⟩

/-- What may follow a block is passed over. -/
theorem finishBlock_skims (hr : r.Sound) (hplaced : r.Placed source) :
    Ends finishBlock r (fun _ r' => r'.Sound ∧ Skims source r r') fun _ _ => True := by
  unfold finishBlock
  refine (peek_spots hr hplaced .declaration).bind fun token r₁ h => ?_
  refine ends_ite.mpr ⟨fun hterminator => ?_, fun _ => ⟨h.sound, h.skims⟩⟩
  have hskims := h.skims.trans (h.shows.skims_consumed h.sound h.skims.placed hterminator)
  exact ends_bind.mpr (h.shows.advance_spec (by simp [hterminator]) ⟨h.sound.consumed, hskims⟩)

/-- Between the span of a statement and the reader behind it stands nothing visible but comments. -/
structure Stretches (source : Text) (r : Reader) (span : Span) (r' : Reader) : Prop where
  moves : Moves source r r'
  start : ∀ token, r.Shows .declaration token → span.start = r.place
  touches : Touches source span r'

/-- The brace is one character of the source. -/
def StandsAt (source : Text) (mark : Char) (span : Span) : Prop :=
  ∃ offset : Nat, span.start = offset ∧ span.stop = offset + 1 ∧ source[offset]? = some mark

/-- An item that is read stretches over what was read; a block that opens follows its target, and
the reader is right after its brace. -/
def Statement.Stretches (source : Text) (r : Reader) : Statement → Reader → Prop
  | .item read, r' => Grammar.Stretches source r (Node.item read).span r'
  | .opening target _ brace, r' =>
    Moves source r r' ∧ (∀ token, r.Shows .declaration token → target.span.start = r.place) ∧
      StandsAt source '\x7b' brace.span ∧ brace.span.stop = r'.place

variable {target : Target}

/-- What ends an item stands behind its span; a block that opens has no end yet. -/
def Statement.Rests (source : Text) : Statement → Reader → Prop
  | .item read, r' => Reader.Rests source (Node.item read).span r'
  | .opening .., _ => True

/-- No terminator stands behind the span: looking on from there the mode of declarations comes to the
end of the source, past comments only. -/
def Unended (source : Text) (span : Span) : Prop :=
  ∃ (stop : Nat) (remarks : List Item) (ends : Bool), span.stop = stop ∧
    Mode.declaration.Finds (source.drop stop) remarks ends ⟨.eof, 0⟩ []

/-- An item behind which the reader has the end of the source ahead has no end of its own. -/
def Statement.Unended (source : Text) : Statement → Reader → Prop
  | .item read, r' =>
    r'.lookahead ≠ none → r'.text = [] → Grammar.Unended source (Node.item read).span
  | .opening .., _ => True

/-- The statement stretches over what was read, and rests behind it. -/
structure Statement.Closes (source : Text) (r : Reader) (statement : Statement) (r' : Reader) :
    Prop where
  stretches : statement.Stretches source r r'
  rests : statement.Rests source r'
  unended : statement.Unended source r'

/-- The end of a statement is one of four: a terminator, the end of a line, a closing brace, or the
end of the source. -/
theorem finish_rests {span : Span} (h : Trails source span r) (hr : r.Sound)
    (hplaced : r.Placed source) (wanted : Text) (others : List Text) :
    Ends (finish wanted others) r (fun _ r' => Rests source span r') fun _ _ => True := by
  unfold finish
  refine (peek_sights hr hplaced .declaration).bind fun token r₁ hsights => ?_
  have htrails := h.drifts (hsights.drifts (.inl rfl))
  have hplaced₁ := hsights.skims.placed
  refine ends_ite.mpr ⟨fun hterminator => ?_, fun _ => ?_⟩
  · have hparted := htrails.parted_consumed hsights.sound hplaced₁ hsights.shows hterminator
    exact ends_bind.mpr (hsights.shows.advance_spec (by simp [hterminator]) (.inl hparted))
  · refine ends_bind.mpr (ends_get.mpr (ends_ite.mpr ⟨fun _ => trivial, fun hends => ?_⟩))
    refine ends_pure.mpr ?_
    by_cases heof : token.kind = .eof
    · exact .inr ⟨token, hsights.shows, .inr heof⟩
    by_cases hbrace : token.isPunct '\x7d' = true
    · exact .inr ⟨token, hsights.shows, .inl hbrace⟩
    have hbreak : r₁.lineBreak = true := by simpa [heof, hbrace] using hends
    exact .inl (htrails.parted hsights.sound hplaced₁ hsights.shows heof hbreak)

/-- A statement that has looked at the end of the source has no end of its own. -/
theorem finish_unended {span : Span} (h : Trails source span r) (hr : r.Sound)
    (hplaced : r.Placed source) (wanted : Text) (others : List Text) :
    Ends (finish wanted others) r
      (fun _ r' => r'.lookahead ≠ none → r'.text = [] → Unended source span) fun _ _ => True := by
  unfold finish
  refine (peek_sights hr hplaced .declaration).bind fun token r₁ hsights => ?_
  refine ends_ite.mpr ⟨fun hterminator => ?_, fun _ => ?_⟩
  · have hconsumed : r₁.consumed.lookahead ≠ none → r₁.consumed.text = [] → Unended source span :=
      fun hahead => absurd rfl hahead
    exact ends_bind.mpr (hsights.shows.advance_spec (by simp [hterminator]) hconsumed)
  · refine ends_bind.mpr (ends_get.mpr (ends_ite.mpr ⟨fun _ => trivial, fun _ => ?_⟩))
    refine ends_pure.mpr fun _ hnil => ?_
    obtain ⟨stop, _, hstop, _, _, _, hpasses⟩ := h.drifts (hsights.drifts (.inl rfl))
    rw [hnil] at hpasses
    obtain ⟨remarks, ends, hfinds⟩ := hpasses.finds_eof
    exact ⟨stop, remarks, ends, hstop, hfinds⟩

/-- The end of a statement leaves its span as it is. -/
theorem finish_closes {span : Span} {item : Item} (h : Ranges source r span r')
    (hspan : (Node.item item).span = span) (wanted : Text) (others : List Text) :
    Ends (finish wanted others >>= fun _ => (pure (.item item) : Parser Statement)) r'
      (fun statement r'' => statement.Closes source r r'') fun _ _ => True := by
  refine (((finish_skims h.moves.sound h.moves.placed wanted others).and
    (finish_rests h.trails h.moves.sound h.moves.placed wanted others)).and
    (finish_unended h.trails h.moves.sound h.moves.placed wanted others)).bind ?_
  rintro _ r₁ ⟨⟨⟨hsound, hskims⟩, hrests⟩, hunended⟩
  refine ends_pure.mpr ⟨?_, ?_, ?_⟩
  · change Grammar.Stretches source r (Node.item item).span r₁
    rw [hspan]
    exact ⟨h.moves.trans (hskims.moves hsound), h.start, h.trails.touches.skims hskims⟩
  · change Reader.Rests source (Node.item item).span r₁
    rwa [hspan]
  · change r₁.lookahead ≠ none → r₁.text = [] → Grammar.Unended source (Node.item item).span
    rwa [hspan]

/-- After a label a statement closes: it ends, or a block opens. -/
theorem declarationAfterLabel_closes (htarget : Ranges source r target.span r') {colon : Span}
    {label : Option Label} (hlast : Attains source r' ((label.map (·.span)).getD colon) r'') :
    Ends (declarationAfterLabel target colon label) r''
      (fun statement r₁ => statement.Closes source r r₁) fun _ _ => True := by
  have hmoves := hlast.moves
  unfold declarationAfterLabel
  refine (peekSameLine_sights hmoves.sound hmoves.placed .label).bind ?_
  rintro seen r₁ ⟨token, h, hseen⟩
  refine ends_ite.mpr ⟨fun _ => ?_, fun _ => ?_⟩
  · refine (expect_spots h.sound h.skims.placed .label '\x7b').bind ?_
    rintro brace _ ⟨r₂, h₂, hmark, rfl⟩
    obtain ⟨hchar, hstop⟩ := h₂.shows.getElem?_mark h₂.sound h₂.skims.placed hmark
    have hstart := (h₂.shows.span h₂.sound).1
    refine ⟨⟨htarget.moves.trans (hmoves.trans (h.moves.trans h₂.moves_consumed)), htarget.start,
      ⟨_, hstart, hstop, hchar⟩, ?_⟩, trivial, trivial⟩
    exact (h₂.shows.place_consumed h₂.sound).symm
  · have hspan := (htarget.cover hlast).drifts (h.drifts (.inr rfl))
    cases label with
    | some found => exact finish_closes hspan rfl _ _
    | none => exact finish_closes hspan rfl _ _

/-- After a colon a statement closes. -/
theorem declarationAfterColon_closes (htarget : Ranges source r target.span r') {colon : Span}
    (hcolon : Attains source r' colon r'') :
    Ends (declarationAfterColon target colon) r''
      (fun statement r₁ => statement.Closes source r r₁) fun _ _ => True := by
  unfold declarationAfterColon
  refine (peekSameLine_sights hcolon.moves.sound hcolon.moves.placed .label).bind ?_
  rintro seen r₁ ⟨token, h, hseen⟩
  have hdrifts := h.drifts (.inr rfl)
  split
  · exact finish_closes ((htarget.cover hcolon).drifts hdrifts) rfl _ _
  · next found =>
      obtain rfl := hseen found rfl
      refine ends_ite.mpr ⟨fun himport => ?_, fun _ => ?_⟩
      · have hkind : found.kind ≠ .eof := by simp [himport]
        refine ends_bind.mpr (h.shows.advance_spec hkind ?_)
        exact finish_closes (htarget.cover (hcolon.moves.attains h.attains)) rfl _ _
      · refine (label_gains h.sound h.skims.placed).bind fun label r₂ hlabel => ?_
        refine declarationAfterLabel_closes htarget ?_
        cases label with
        | none =>
            have hlater : Drifts source r₁ r₂ := hlabel
            exact (hcolon.drifts hdrifts).drifts hlater
        | some found => exact (hcolon.moves.trans h.moves).attains hlabel

/-- After a target a statement closes. -/
theorem declarationFrom_closes (htarget : Ranges source r target.span r') :
    Ends (declarationFrom target) r' (fun statement r'' => statement.Closes source r r'')
      fun _ _ => True := by
  unfold declarationFrom
  refine (peekSameLine_sights htarget.moves.sound htarget.moves.placed .declaration).bind ?_
  rintro seen r₁ ⟨token, h, hseen⟩
  refine ends_ite.mpr ⟨fun hmark => ?_, fun _ => ?_⟩
  · obtain ⟨found, rfl, hcolon⟩ := isMark_eq_true.mp hmark
    obtain rfl := hseen found rfl
    refine ends_bind.mpr (h.shows.advance_spec (Token.kind_ne_eof_of_isPunct hcolon) ?_)
    exact declarationAfterColon_closes htarget h.attains
  · exact finish_closes (htarget.drifts (h.drifts (.inl rfl))) rfl _ _

/-- A statement that begins at the token ahead stretches over what it reads, and rests behind it. -/
theorem statement_closes (hr : r.Sound) (hplaced : r.Placed source) {token : Token}
    (hshows : r.Shows .declaration token) :
    Ends statement r (fun statement r' => statement.Closes source r r') fun _ _ => True := by
  unfold statement
  refine (ends_congr (bind_ok hshows.peek_eq)).mpr ?_
  have hsights : Sights source .declaration r token r :=
    ⟨⟨hr, hshows, .refl hplaced, fun _ _ => rfl⟩, fun _ => .refl hr hplaced⟩
  refine ends_ite.mpr ⟨fun himport => ?_, fun _ => ends_ite.mpr ⟨fun _ => ?_, fun _ => ?_⟩⟩
  · refine ends_bind.mpr (hshows.advance_spec (by simp [himport]) ?_)
    exact finish_closes (ranges_of_sights hsights) rfl _ _
  · refine (reference_ranges hr hplaced).bind fun reference r₁ h₁ => ?_
    have htarget : Ranges source r (Target.reference reference).span r₁ := h₁
    exact declarationFrom_closes htarget
  · refine (identifier_ranges hr hplaced).bind fun first r₁ h₁ => ?_
    refine (peekSameLine_sights h₁.moves.sound h₁.moves.placed .declaration).bind ?_
    rintro seen r₂ ⟨found, h₂, _⟩
    have hfirst := h₁.drifts (h₂.drifts (.inl rfl))
    refine ends_ite.mpr ⟨fun _ => ?_, fun _ => ?_⟩
    · refine (methodFrom_ranges hfirst).bind fun method r₃ h₃ => ?_
      exact finish_closes h₃ rfl _ _
    · refine (expressionFrom_ranges hfirst).bind fun expression r₃ h₃ => ?_
      have htarget : Ranges source r (Target.expression expression).span r₃ := h₃
      exact declarationFrom_closes htarget

theorem statement_stretches (hr : r.Sound) (hplaced : r.Placed source) {token : Token}
    (hshows : r.Shows .declaration token) :
    Ends statement r (fun statement r' => statement.Stretches source r r') fun _ _ => True :=
  (statement_closes hr hplaced hshows).imp fun _ _ h => h.stretches

end Grammar

end DiagramText
