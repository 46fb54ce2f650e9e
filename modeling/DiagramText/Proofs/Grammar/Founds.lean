import DiagramText.Proofs.Grammar.Threads
import DiagramText.Proofs.Reader.Founds

/-!
# Faults of the grammar are founded

Every program of the grammar comes only to faults that the source bears out, up
to the whole statement (`Grammar.statement_founds`): what is unexpected is a
token of the source, the name or type that is wrong in a signature is one of its
words, the integer that is too long stands in a label or as the index of a
reference, and the text of a code block always has parts.  The brace at which a
statement hands over a block is an opening brace of the source, and a label that
is a number or a boolean is a token of the source.
-/

namespace DiagramText

/-- Whether the value is a number or a boolean. -/
def Scalar.isLiteral : Scalar → Bool
  | .integer _ => true
  | .float _ => true
  | .boolean _ => true
  | _ => false

/-- A label that is a number or a boolean is a token of that kind, which was read from the source. -/
def Label.ReadFrom (source : Text) : Label → Prop
  | .scalar value _ span => value.isLiteral = true → ∃ token : Token,
      token.ReadFrom source .label ∧ (token.kind = .number ∨ token.kind = .boolean) ∧
        token.span = span
  | _ => True

/-! ## Integers with too many digits -/

/-- A numeral without a point is a row of digits after its sign. -/
theorem Numeral.isDigit_unsigned {raw : Text} (h : IsNumeral raw) (hpoint : raw.contains '.' = false) :
    (unsigned raw).all Char.isDigit = true := by
  have hunsigned : unsignedLength (unsigned raw) = (unsigned raw).length := by
    obtain ⟨hsome, hlength⟩ := h
    cases raw with
    | nil => exact absurd rfl hsome
    | cons c rest =>
        by_cases hsign : c = '+' ∨ c = '-'
        · have hrest : unsigned (c :: rest) = rest := by rcases hsign with rfl | rfl <;> rfl
          simp only [numeralLength, if_pos hsign, List.length_cons] at hlength
          rw [hrest]
          split at hlength <;> omega
        · have hsame : unsigned (c :: rest) = c :: rest := by
            unfold unsigned
            split <;> simp_all
          rw [numeralLength, if_neg hsign] at hlength
          rw [hsame, hlength]
  have hplain : '.' ∉ unsigned raw := by
    intro hmem
    have hraw : '.' ∈ raw := by
      unfold unsigned at hmem
      split at hmem
      · exact List.mem_cons_of_mem _ hmem
      · exact List.mem_cons_of_mem _ hmem
      · exact hmem
    rw [List.contains_eq_mem] at hpoint
    exact of_decide_eq_false hpoint hraw
  -- A fraction would begin with a point.
  have hnone : fractionLength ((unsigned raw).drop (Text.run Char.isDigit (unsigned raw))) = 0 := by
    unfold fractionLength
    split
    · next rest hdrop =>
        have hmem : '.' ∈ (unsigned raw).drop (Text.run Char.isDigit (unsigned raw)) := by
          rw [hdrop]
          exact List.mem_cons_self
        exact absurd (List.mem_of_mem_drop hmem) hplain
    · rfl
  simp only [unsignedLength, hnone] at hunsigned
  have hrun : Text.run Char.isDigit (unsigned raw) = (unsigned raw).length := by
    split at hunsigned <;> omega
  have hwhole : (unsigned raw).takeWhile Char.isDigit = unsigned raw :=
    (List.takeWhile_prefix _).eq_of_length hrun
  rw [← hwhole]
  exact List.all_takeWhile

/-- An integer is rejected for the number of its digits. -/
theorem Numeral.integer_eq_error {raw : Text} {digits : Nat} (h : integer raw = .error digits) :
    digitLimit < digits ∧ digits = (unsigned raw).length := by
  rw [integer, except_map_eq_error, natural] at h
  split at h
  · next hlimit =>
      obtain rfl := Except.error.inj h
      exact ⟨hlimit, rfl⟩
  · cases h

namespace Grammar

open Reader

variable {source : Text}

/-- An alternative that a message names is not empty, and the token that was found is there. -/
theorem founded_unexpected {mode : Mode} {wanted : Text} {others : List Text} {found : Token}
    (hforms : ∀ form ∈ wanted :: others, form ≠ []) (hfound : found.ReadFrom source mode) :
    (SyntaxError.unexpected wanted others found).Founded source :=
  ⟨hforms, mode, hfound⟩

/-! ## Names, expressions and references -/

theorem namePart_founds : Founds source namePart fun _ => True := by
  apply (Founds.peek _).bind
  intro token htoken
  split
  · exact (Founds.advance _).bind fun _ _ => .pure trivial
  · exact (Founds.advance _).bind fun _ _ => .pure trivial
  · exact .fail (founded_unexpected (by decide) htoken)

theorem fieldStep_founds : Founds source fieldStep fun _ => True := by
  apply (Founds.peekSameLine _).bind
  intro seen _
  apply Founds.ite
  · intro _
    exact (Founds.advance _).bind fun _ _ => namePart_founds.bind fun _ _ => .pure trivial
  · exact fun _ => .pure trivial

theorem fields_founds : Founds source fields fun _ => True :=
  fieldStep_founds.many_any

theorem identifier_founds : Founds source identifier fun _ => True :=
  namePart_founds.bind fun _ _ => fields_founds.bind fun _ _ => .pure trivial

theorem hopStep_founds : Founds source hopStep fun _ => True := by
  apply (Founds.peekSameLine _).bind
  intro seen _
  cases seen with
  | none => exact .pure trivial
  | some token =>
      apply Founds.ite
      · intro _
        exact (Founds.advance _).bind fun _ _ => identifier_founds.bind fun _ _ => .pure trivial
      · exact fun _ => .pure trivial

theorem expressionFrom_founds (first : Identifier) :
    Founds source (expressionFrom first) fun _ => True :=
  hopStep_founds.many_any.bind fun _ _ => .pure trivial

theorem expression_founds : Founds source expression fun _ => True :=
  identifier_founds.bind fun first _ => expressionFrom_founds first

/-- What a reference fails with was read in the source, a bad index included. -/
theorem reference_founds : Founds source reference fun _ => True := by
  apply (Founds.expect _ _).bind
  intro opening _
  apply expression_founds.bind
  intro expression _ r hr hplaced
  -- From here on the places of the brackets around the index matter.
  apply ends_mark_founded hr hplaced
  · exact fun token htoken => founded_unexpected (by decide) htoken
  intro _ r₁ _ _ h₁
  apply ends_mark_founded h₁.sound h₁.placed
  · exact fun token htoken => htoken
  intro opens r₂ hopens hopened h₂
  apply (peek_founded h₂.sound h₂.placed .declaration).bind
  intro index r₃ h₃
  apply ends_guard
  · exact fun _ => h₃.readFrom
  intro hguard
  have hindex := Token.of_not_badIndex hguard
  refine ends_bind.mpr (h₃.shows.advance_spec (by simp [hindex.1]) ?_)
  have h₄ := h₂.append h₃.threads
  apply ends_mark_founded h₄.sound h₄.placed
  · exact fun token htoken => htoken
  intro closes r₅ hcloses hclosed h₅
  have hrow : Threads source r₁ [opens.span, index.span, closes.span] r₅ := h₄.append h₅
  apply (fields_founds r₅ h₅.sound h₅.placed).bind
  intro fields r₆ h₆
  split
  · next digits hdigits =>
      rw [Numeral.natural] at hdigits
      split at hdigits
      · next hlimit =>
          obtain rfl := Except.error.inj hdigits
          refine ⟨hlimit, .index hopens hopened h₃.readFrom hindex.2 hcloses hclosed ?_⟩
          have hcover := hrow.row.from_first.last
          exact hcover
      · cases hdigits
  · exact ⟨h₆.1, trivial⟩

/-! ## Labels -/

/-- A numeral of the source has a value, unless it has too many digits. -/
theorem numberValue_founds {token : Token} (htoken : token.ReadFrom source .label)
    (hkind : token.kind = .number) : Founds source (numberValue token.text) fun _ => True := by
  apply Founds.ite
  · exact fun _ => .pure trivial
  · intro hpoint
    split
    · exact .pure trivial
    · next digits hdigits =>
        obtain ⟨hlimit, rfl⟩ := Numeral.integer_eq_error hdigits
        have hnumeral := IsNumeral.of_spells (hkind ▸ htoken.spells)
        have hall := Numeral.isDigit_unsigned hnumeral (by simpa using hpoint)
        exact .throw ⟨hlimit, .label htoken hkind hall⟩

/-- A constraint fails with a token that was read in the source. -/
theorem constraintName_founds {others : List Text} (hothers : ∀ form ∈ others, form ≠ []) :
    Founds source (constraintName others) fun _ => True := by
  apply (Founds.peek _).bind
  intro token htoken
  apply Founds.guard
  · exact founded_unexpected (List.forall_mem_cons.mpr ⟨by decide, hothers⟩) htoken
  · intro _
    refine (Founds.advance _).bind fun _ _ => (Founds.peek _).bind fun next _ => ?_
    apply Founds.ite
    · exact fun _ => (Founds.advance _).bind fun _ _ => .pure trivial
    · exact fun _ => .pure trivial

theorem constraintStep_founds : Founds source constraintStep fun _ => True := by
  apply (Founds.peek _).bind
  intro token _
  apply Founds.ite
  · exact fun _ => .pure trivial
  · exact fun _ => (constraintName_founds (by decide)).bind fun _ _ => .pure trivial

/-- Constraints are founded, and hand over nothing else. -/
theorem constraints_founds : Founds source constraints fun label =>
    ∃ names span, label = .constraints names span := by
  rw [constraints_eq]
  apply (Founds.expect _ _).bind
  intro opening _
  apply (constraintName_founds (by decide)).bind
  intro first _
  apply constraintStep_founds.many_any.bind
  intro others _
  exact (Founds.advance _).bind fun _ _ => .pure ⟨_, _, rfl⟩

/-- The text of a code block always has parts, so no label fails for want of them; and a number or a
boolean is a token that was read. -/
theorem label_founds :
    Founds source label fun found => ∀ label, found = some label → label.ReadFrom source := by
  have hsome : ∀ label : Label, label.ReadFrom source →
      ∀ found, some label = some found → found.ReadFrom source := by
    rintro label hlabel found ⟨⟩
    exact hlabel
  apply (Founds.peek _).bind
  intro token htoken
  split
  · next hkind =>
      apply (Founds.advance _).bind
      intro _ _
      obtain ⟨parts, hparts, _⟩ := CodeParts.of_spells (hkind ▸ htoken.spells)
      rw [hparts]
      exact .pure (hsome _ trivial)
  · next hkind =>
      apply (Founds.advance _).bind
      intro _ _
      apply (numberValue_founds htoken hkind).bind
      intro value _
      exact .pure (hsome _ fun _ => ⟨token, htoken, .inl hkind, rfl⟩)
  · next hkind =>
      apply (Founds.advance _).bind
      intro _ _
      exact .pure (hsome _ fun _ => ⟨token, htoken, .inr hkind, rfl⟩)
  · exact (Founds.advance _).bind fun _ _ => .pure (hsome _ fun hliteral => by cases hliteral)
  · exact (Founds.advance _).bind fun _ _ => .pure (hsome _ fun hliteral => by cases hliteral)
  · apply Founds.ite
    · intro _
      apply constraints_founds.bind
      rintro _ ⟨names, span, rfl⟩
      exact .pure (hsome _ trivial)
    · exact fun _ => .pure (by simp)

/-! ## Methods -/

namespace Segment

/-- What is wrong with words is wrong with the list or with one of them. -/
theorem span_of_ofWords {opening : Span} {words : List Token} {error : SyntaxError}
    (h : ofWords opening words = .error error) :
    ∃ fault span, error = .badSignature fault span ∧ (span = opening ∨ ∃ word ∈ words, word.span = span) := by
  rcases words with _ | ⟨name, _ | ⟨type, _ | ⟨third, others⟩⟩⟩ <;> simp only [ofWords] at h
  · exact ⟨_, _, (Except.error.inj h).symm, .inl rfl⟩
  · split at h
    · exact ⟨_, _, (Except.error.inj h).symm, .inr ⟨name, by simp, rfl⟩⟩
    · cases h
  · split at h
    · exact ⟨_, _, (Except.error.inj h).symm, .inr ⟨name, by simp, rfl⟩⟩
    · cases h
  · exact ⟨_, _, (Except.error.inj h).symm, .inr ⟨third, by simp, rfl⟩⟩

/-- The type that is missing is that of one of the names. -/
theorem span_of_shareTypes {segments : List Segment} {error : SyntaxError}
    (h : shareTypes segments = .error error) :
    ∃ fault span, error = .badSignature fault span ∧ ∃ segment ∈ segments, segment.name.span = span := by
  induction segments with
  | nil => cases h
  | cons segment segments ih =>
      have hlater : shareTypes segments = .error error →
          ∃ fault span, error = .badSignature fault span ∧
            ∃ found ∈ segment :: segments, found.name.span = span := by
        intro h
        obtain ⟨fault, span, herror, found, hfound, hspan⟩ := ih h
        exact ⟨fault, span, herror, found, List.mem_cons_of_mem _ hfound, hspan⟩
      cases segment with
      | bare name =>
          simp only [shareTypes] at h
          split at h
          · exact ⟨_, _, (Except.error.inj h).symm, .bare name, List.mem_cons_self, rfl⟩
          · exact hlater (except_map_eq_error.mp h)
      | typed name type => exact hlater (except_map_eq_error.mp h)

end Segment

/-- What is wrong with the words of a list is wrong with the list or with one of the words. -/
theorem span_of_resolveArguments {opening : Span} {tokens : List Token} {error : SyntaxError}
    (h : resolveArguments opening (splitAtCommas tokens) = .error error) :
    ∃ fault span, error = .badSignature fault span ∧ (span = opening ∨ ∃ word ∈ tokens, word.span = span) := by
  have hmem : ∀ words ∈ dropTrailingComma (splitAtCommas tokens), ∀ word ∈ words, word ∈ tokens :=
    fun words hwords word hword => (splitAtCommas_subset (dropTrailingComma_subset words hwords) word hword).1
  unfold resolveArguments at h
  split at h
  · cases h
  · rcases except_bind_eq_error.mp h with hsegments | ⟨segments, hsegments, h⟩
    · obtain ⟨words, hwords, hfault⟩ := exists_of_mapM_eq_error hsegments
      obtain ⟨fault, span, rfl, rfl | ⟨word, hword, rfl⟩⟩ := Segment.span_of_ofWords hfault
      · exact ⟨fault, _, rfl, .inl rfl⟩
      · exact ⟨fault, _, rfl, .inr ⟨word, hmem words hwords word hword, rfl⟩⟩
    · split at h
      · cases h
      · rw [Segment.assignTypes_eq_shareTypes] at h
        obtain ⟨fault, span, rfl, segment, hsegment, rfl⟩ := Segment.span_of_shareTypes h
        obtain ⟨words, hwords, hof⟩ := mem_of_mapM_eq_ok hsegments segment hsegment
        refine ⟨fault, _, rfl, .inr ⟨segment.name, hmem words hwords _ ?_, rfl⟩⟩
        obtain ⟨_, ⟨name, rfl, rfl⟩ | ⟨name, type, rfl, rfl⟩⟩ := Segment.ofWords_eq_ok.mp hof
        · exact List.mem_cons_self
        · exact List.mem_cons_self

/-- A word of a list was read in the source. -/
theorem wordStep_founds : Founds source wordStep fun found =>
    ∀ word, found = some word → word.ReadFrom source .arguments := by
  apply (Founds.peek _).bind
  intro token htoken
  apply Founds.ite
  · exact fun _ => .pure (by simp)
  · intro _
    apply Founds.ite
    · intro _
      apply (Founds.advance _).bind
      intro word hword
      apply Founds.pure
      intro found hfound
      exact Option.some.inj hfound ▸ hword
    · exact fun _ => .fail (founded_unexpected (by decide) htoken)

/-- A list of arguments fails with spans of the source only. -/
theorem argumentList_founds : Founds source argumentList fun _ => True := by
  rw [argumentList_eq]
  apply (Founds.expect _ _).bind
  intro opening ⟨hopening, _⟩
  apply wordStep_founds.many.bind
  intro words hwords
  apply (Founds.advance _).bind
  intro closing _
  split
  · exact .pure trivial
  · next error herror =>
      obtain ⟨fault, span, rfl, rfl | ⟨word, hword, rfl⟩⟩ := span_of_resolveArguments herror
      · exact .fail ⟨opening, hopening, rfl⟩
      · exact .fail ⟨word, hwords word hword, rfl⟩

/-- A method fails with spans of the source only. -/
theorem methodFrom_founds (name : Identifier) : Founds source (methodFrom name) fun _ => True := by
  apply argumentList_founds.bind
  intro arguments _
  apply (Founds.peekSameLine _).bind
  intro seen _
  apply Founds.ite
  · exact fun _ => (Founds.advance _).bind fun _ _ => argumentList_founds.bind fun _ _ => .pure trivial
  · exact fun _ => .pure trivial

/-! ## Statements -/

/-- The end of a statement fails with the token that is read there. -/
theorem finish_founds {wanted : Text} {others : List Text}
    (hforms : ∀ form ∈ wanted :: others, form ≠ []) :
    Founds source (finish wanted others) fun _ => True := by
  apply (Founds.peek _).bind
  intro token htoken
  apply Founds.ite
  · exact fun _ => (Founds.advance _).bind fun _ _ => .pure trivial
  · intro _
    have hrest : ∀ ended : Bool, Founds source
        (if (token.kind ≠ .eof && !token.isPunct '\x7d' && !ended) = true then
          fail (.unexpected wanted others token)
        else (pure () : Parser Unit)) fun _ => True := fun ended =>
      .ite (fun _ => .fail (founded_unexpected hforms htoken)) fun _ => .pure trivial
    exact .line hrest

/-- What may follow a block fails with the fault of a scan only. -/
theorem finishBlock_founds : Founds source finishBlock fun _ => True := by
  apply (Founds.peek _).bind
  intro token _
  apply Founds.ite
  · exact fun _ => (Founds.advance _).bind fun _ _ => .pure trivial
  · exact fun _ => .pure trivial

/-- Where a block is handed over, an opening brace was read from the source. -/
def Statement.Braced (source : Text) : Statement → Prop
  | .item _ => True
  | .opening _ _ brace => brace.ReadFrom source .label ∧ brace.isPunct '\x7b' = true

/-- The label of the declaration that is handed over or begins. -/
def Statement.label? : Statement → Option Label
  | .item read => read.label?
  | .opening _ label _ => label

/-- What is handed over was read from the source, so far as it ends with a brace or has a label. -/
structure Statement.Founded (source : Text) (read : Statement) : Prop where
  braced : read.Braced source
  label : ∀ label, read.label? = some label → label.ReadFrom source

/-- An item without a label, which is no block, is founded. -/
theorem founded_item {item : Item} (h : item.label? = none) :
    Statement.Founded source (.item item) where
  braced := trivial
  label label hlabel := by cases h.symm.trans hlabel

/-- What follows a label is founded, and so are the label and the brace that it hands over. -/
theorem declarationAfterLabel_founds (target : Target) (colon : Span) {label : Option Label}
    (hlabel : ∀ found, label = some found → found.ReadFrom source) :
    Founds source (declarationAfterLabel target colon label) (·.Founded source) := by
  apply (Founds.peekSameLine _).bind
  intro seen _
  apply Founds.ite
  · exact fun _ => (Founds.expect _ _).bind fun brace hbrace => .pure ⟨hbrace, hlabel⟩
  · intro _
    cases label with
    | none => exact (finish_founds (by decide)).bind fun _ _ => .pure (founded_item rfl)
    | some label => exact (finish_founds (by decide)).bind fun _ _ => .pure ⟨trivial, hlabel⟩

/-- What follows a colon is founded, and what it hands over. -/
theorem declarationAfterColon_founds (target : Target) (colon : Span) :
    Founds source (declarationAfterColon target colon) (·.Founded source) := by
  apply (Founds.peekSameLine _).bind
  intro seen _
  cases seen with
  | none => exact (finish_founds (by decide)).bind fun _ _ => .pure (founded_item rfl)
  | some token =>
      apply Founds.ite
      · intro _
        apply (Founds.advance _).bind
        exact fun _ _ => (finish_founds (by decide)).bind fun _ _ => .pure (founded_item rfl)
      · exact fun _ => label_founds.bind fun _ hfound => declarationAfterLabel_founds target colon hfound

/-- What follows a target is founded, and what it hands over. -/
theorem declarationFrom_founds (target : Target) :
    Founds source (declarationFrom target) (·.Founded source) := by
  apply (Founds.peekSameLine _).bind
  intro seen _
  apply Founds.ite
  · exact fun _ => (Founds.advance _).bind fun colon _ => declarationAfterColon_founds target colon.span
  · exact fun _ => (finish_founds (by decide)).bind fun _ _ => .pure (founded_item rfl)

/-- The faults of a statement are founded, and so is what it hands over. -/
theorem statement_founds : Founds source statement (·.Founded source) := by
  apply (Founds.peek _).bind
  intro token _
  apply Founds.ite
  · intro _
    apply (Founds.advance _).bind
    exact fun _ _ => (finish_founds (by decide)).bind fun _ _ => .pure (founded_item rfl)
  intro _
  apply Founds.ite
  · exact fun _ => reference_founds.bind fun reference _ => declarationFrom_founds (.reference reference)
  intro _
  apply identifier_founds.bind
  intro first _
  apply (Founds.peekSameLine _).bind
  intro seen _
  apply Founds.ite
  · intro _
    apply (methodFrom_founds first).bind
    exact fun _ _ => (finish_founds (by decide)).bind fun _ _ => .pure (founded_item rfl)
  · exact fun _ => (expressionFrom_founds first).bind fun expression _ =>
      declarationFrom_founds (.expression expression)

end Grammar

end DiagramText
