import DiagramText.Proofs.Grammar.Spans
import DiagramText.Proofs.Reader.Threads
import DiagramText.Proofs.Reprint.Statement

/-!
# Nodes on the way of the grammar

Each program of the grammar passes what it reads, and what it reads is sourced
(`Grammar.statement_threads`): the tokens of a node stand one after another
(`Reader.Threads`), the node reaches from the first to the last of them, and its
parts are among them or take the place of some.

Arguments need one step more.  They are made from words after all words are
read, and a comma belongs to none; what is left of the row of words is a row of
arguments (`Grammar.threads_of_resolveArguments`).
-/

namespace DiagramText

open Reader

namespace Grammar

variable {source : Text} {r r' r'' : Reader}

/-! ## Names, expressions and references -/

/-- A name that was quoted is quoted again as it was. -/
theorem partSource_quoted {text : Text} {fields : List Identifier} {span : Span}
    (h : Mode.declaration.Spells .quoted text) :
    Identifier.partSource
      ⟨(Text.unquote? text).getD [], text.head?.bind QuoteMark.ofChar?, fields, span⟩ = text := by
  obtain ⟨mark, _, hmark, hsource⟩ := (IsQuoted.of_spells h).quote_unquote?
  simp only [Identifier.partSource, hmark, hsource]

/-- The part of a name is sourced, and its span is threaded. -/
theorem namePart_threads (hr : r.Sound) (hplaced : r.Placed source) :
    Ends namePart r (fun part r' => Threads source r [part.span] r' ∧ part.fields = [] ∧
      (Node.identifier part).Sourced source) fun _ _ => True := by
  unfold namePart
  apply (peek_spots hr hplaced .declaration).bind
  intro token r₁ h
  split
  · next hkind =>
      have hkind' : token.kind ≠ .eof := by simp [hkind]
      refine ends_bind.mpr (h.shows.advance_spec hkind' ⟨h.threads, rfl, ?_⟩)
      exact .leaf rfl h.within fun _ => h.text_eq
  · next hkind =>
      have hkind' : token.kind ≠ .eof := by simp [hkind]
      refine ends_bind.mpr (h.shows.advance_spec hkind' ⟨h.threads, rfl, ?_⟩)
      refine .leaf rfl h.within fun _ => ?_
      rw [partSource_quoted (hkind ▸ h.shows.spells h.sound)]
      exact h.text_eq
  · trivial

/-- A field is sourced and threaded, if there is one. -/
theorem fieldStep_threads (hr : r.Sound) (hplaced : r.Placed source) :
    Ends fieldStep r (fun found r' =>
      Threads source r (found.toList.flatMap fun field => [field.span]) r' ∧
        ∀ field, found = some field → (Node.identifier field).Sourced source) fun _ _ => True := by
  unfold fieldStep
  apply (peekSameLine_spots hr hplaced .declaration).bind
  intro seen r₁ ⟨token, h, hseen⟩
  apply ends_ite.mpr
  constructor
  · intro hmark
    obtain ⟨found, rfl, hdot⟩ := isMark_eq_true.mp hmark
    obtain rfl := hseen found rfl
    have hdotted := h.moves_consumed
    refine ends_bind.mpr (h.shows.advance_spec (Token.kind_ne_eof_of_isPunct hdot) ?_)
    apply (namePart_threads hdotted.sound hdotted.placed).bind
    intro part r₂ ⟨hpart, _, hsourced⟩
    refine ⟨.after hdotted hpart, fun field hfield => ?_⟩
    exact Option.some.inj hfield ▸ hsourced
  · intro _
    exact ⟨.of_moves h.moves, by simp⟩

/-- The fields of a name are sourced and threaded one after another. -/
theorem fields_threads (hr : r.Sound) (hplaced : r.Placed source) :
    Ends fields r (fun found r' => Threads source r (found.map (·.span)) r' ∧
      ∀ field ∈ found, (Node.identifier field).Sourced source) fun _ _ => True := by
  apply (many_threads (fun field => [field.span]) (fun _ => fieldStep_threads) hr hplaced).imp
  intro found r' h
  rwa [← List.map_eq_flatMap] at h

/-- The span of the last name is the last of the spans. -/
theorem lastSpan_eq (default : Span) (identifiers : List Identifier) :
    lastSpan default identifiers = (identifiers.map (·.span)).getLast?.getD default := by
  rw [lastSpan, List.getLast?_map]

/-- A name is sourced, with its fields in a row within its span. -/
theorem identifier_threads (hr : r.Sound) (hplaced : r.Placed source) :
    Ends identifier r (fun name r' => Threads source r [name.span] r' ∧
      (Node.identifier name).Sourced source) fun _ _ => True := by
  unfold identifier
  apply (namePart_threads hr hplaced).bind
  intro head r₁ ⟨hhead, hnone, hsourced⟩
  apply (fields_threads hhead.sound hhead.placed).bind
  intro fields r₂ ⟨hfields, hparts⟩
  have hall : Threads source r (head.span :: fields.map (·.span)) r₂ := hhead.append hfields
  refine hall.node (.identifier _) ?_ ?_ ?_ ?_
  · exact congrArg head.span.cover (lastSpan_eq _ _)
  · refine .cons _ ?_
    simp [Node.parts, Node.children, Function.comp_def, Node.span]
  · exact List.forall_mem_map.mpr hparts
  · intro hempty
    obtain rfl : fields = [] := hempty
    have htext : head.span.text source = head.partSource := hsourced.faithful.spelled hnone
    show (head.span.cover head.span).text source = head.partSource
    rw [Span.cover_self, htext]

/-- A connection and the name it leads to are sourced and threaded, if they are there. -/
theorem hopStep_threads (hr : r.Sound) (hplaced : r.Placed source) :
    Ends hopStep r (fun found r' =>
      Threads source r (found.toList.flatMap fun hop => [hop.1.span, hop.2.span]) r' ∧
        ∀ hop, found = some hop → (Node.connection hop.1).Sourced source ∧
          (Node.identifier hop.2).Sourced source) fun _ _ => True := by
  unfold hopStep
  apply (peekSameLine_spots hr hplaced .declaration).bind
  intro seen r₁ ⟨token, h, hseen⟩
  cases seen with
  | none => exact ⟨.of_moves h.moves, by simp⟩
  | some found =>
      obtain rfl := hseen found rfl
      unfold hopFrom
      apply ends_ite.mpr
      constructor
      · intro hconnection
        have hop := h.threads
        have hleaf : (Node.connection ⟨found.text, found.span⟩).Sourced source :=
          .leaf rfl h.within h.text_eq
        refine ends_bind.mpr (h.shows.advance_spec (by simp [hconnection]) ?_)
        apply (identifier_threads hop.sound hop.placed).bind
        intro name r₂ ⟨hname, hsourced⟩
        refine ⟨hop.append hname, fun pair hpair => ?_⟩
        exact Option.some.inj hpair ▸ ⟨hleaf, hsourced⟩
      · intro _
        exact ⟨.of_moves h.moves, by simp⟩

/-- The last of pairs in a row is the second half of the last pair. -/
theorem getLast?_pairs {α β : Type} (f g : α → β) (pairs : List α) :
    (pairs.flatMap fun pair => [f pair, g pair]).getLast? = pairs.getLast?.map g := by
  rcases List.eq_nil_or_concat pairs with rfl | ⟨others, last, rfl⟩
  · rfl
  · simp

/-- An expression is sourced, with its names and connections in a row within its span. -/
theorem expressionFrom_threads {first : Identifier} (hfirst : Threads source r [first.span] r')
    (hsourced : (Node.identifier first).Sourced source) :
    Ends (expressionFrom first) r' (fun expression r'' => Threads source r [expression.span] r'' ∧
      (Node.expression expression).Sourced source) fun _ _ => True := by
  rw [expressionFrom_eq]
  apply (many_threads (fun hop => [hop.1.span, hop.2.span]) (fun _ => hopStep_threads) hfirst.sound
    hfirst.placed).bind
  intro hops r₁ ⟨hhops, hparts⟩
  have hall : Threads source r
      (first.span :: hops.flatMap fun hop => [hop.1.span, hop.2.span]) r₁ := hfirst.append hhops
  refine hall.node (.expression _) ?_ ?_ ?_ trivial
  · show first.span.cover (lastSpan first.span (hops.map (·.2))) = _
    rw [lastSpan, getLast?_pairs, List.getLast?_map, Option.map_map]
    rfl
  · have hparts : (Node.expression ⟨first, hops.map (·.2), hops.map (·.1),
        first.span.cover (lastSpan first.span (hops.map (·.2)))⟩).parts =
        .identifier first :: hops.flatMap fun hop => [.connection hop.1, .identifier hop.2] := by
      simp only [Node.parts, Expression.identifiers, List.map_cons, List.map_map, alternate_map]
      rfl
    have hspans : (first.span :: (hops.flatMap fun hop =>
        [Node.connection hop.1, .identifier hop.2]).map Node.span) =
        first.span :: hops.flatMap fun hop => [hop.1.span, hop.2.span] := by
      rw [List.map_flatMap]
      rfl
    simp only [hparts, List.map_cons]
    exact hspans ▸ .refl _
  · simp only [Node.children, Expression.identifiers, List.map_cons, List.cons_append,
      List.forall_mem_cons, List.forall_mem_append, List.forall_mem_map]
    exact ⟨hsourced, fun hop hmem => (hparts hop hmem).2, fun hop hmem => (hparts hop hmem).1⟩

/-- An expression is threaded as one span. -/
theorem expression_threads (hr : r.Sound) (hplaced : r.Placed source) :
    Ends expression r (fun expression r' => Threads source r [expression.span] r' ∧
      (Node.expression expression).Sourced source) fun _ _ => True := by
  unfold expression
  apply (identifier_threads hr hplaced).bind
  intro first r₁ ⟨hfirst, hsourced⟩
  exact expressionFrom_threads hfirst hsourced

/-- A reference is sourced, with its expression and fields in a row within its span. -/
theorem reference_threads (hr : r.Sound) (hplaced : r.Placed source) :
    Ends reference r (fun reference r' => Threads source r [reference.span] r' ∧
      (Node.reference reference).Sourced source) fun _ _ => True := by
  unfold reference
  apply (expect_threads hr hplaced .declaration '(').bind
  intro opening r₁ h₁
  apply (expression_threads h₁.sound h₁.placed).bind
  intro expression r₂ ⟨h₂, hexpression⟩
  refine ends_mark_threads h₂.sound h₂.placed fun _ r₃ h₃ => ?_
  refine ends_mark_threads h₃.sound h₃.placed fun _ r₄ h₄ => ?_
  apply (peek_spots h₄.sound h₄.placed .declaration).bind
  intro index r₅ h₅
  refine ends_guard (fun _ => trivial) fun hdigits => ?_
  have hkind : index.kind ≠ .eof := by simp [(Token.of_not_badIndex hdigits).1]
  refine ends_bind.mpr (h₅.shows.advance_spec hkind ?_)
  have h₆ := h₅.moves_consumed
  refine ends_mark_threads h₆.sound h₆.placed fun closing r₇ h₇ => ?_
  apply (fields_threads h₇.sound h₇.placed).bind
  intro fields r₈ ⟨h₈, hfields⟩
  split
  · trivial
  · -- Of the tokens between the expression and the fields only the last bracket matters.
    have hall : Threads source r
        (opening.span :: expression.span :: closing.span :: fields.map (·.span)) r₈ :=
      h₁.append (h₂.append (.after (h₃.moves.trans (h₄.moves.trans h₆)) (h₇.append h₈)))
    refine hall.node (.reference _) ?_ ?_ ?_ trivial
    · simp [Node.span, lastSpan_eq, List.getLast?_cons]
    · refine .cons _ ?_
      simp [Node.parts, Node.children, Function.comp_def, Node.span]
    · exact List.forall_mem_cons.mpr ⟨hexpression, List.forall_mem_map.mpr hfields⟩

/-! ## Labels -/

/-- Constraints are sourced, from bracket to bracket. -/
theorem constraints_threads (hr : r.Sound) (hplaced : r.Placed source) :
    Ends constraints r (fun label r' => Threads source r [label.span] r' ∧
      (Node.label label).Sourced source) fun _ _ => True := by
  rw [constraints_eq]
  apply (expect_threads hr hplaced .label '[').bind
  intro opening r₁ h₁
  apply (constraintName_moves h₁.sound h₁.placed []).bind
  intro first r₂ h₂
  apply (many_moves (fun _ => constraintStep_moves) h₂.sound h₂.placed).bind
  intro others r₃ h₃
  apply (advance_threads h₃.sound h₃.placed .constraints).bind
  intro closing r₄ h₄
  have hall : Threads source r [opening.span, closing.span] r₄ :=
    h₁.append (.after (h₂.trans h₃) h₄)
  refine hall.node (.label (.constraints _ _)) rfl ?_ ?_ trivial
  · exact List.nil_sublist _
  · exact fun _ hpart => absurd hpart List.not_mem_nil

/-- A label that is one token is sourced if it stands for the text of the token. -/
theorem labelToken_threads {token : Token} {label : Label} (h : Spots source .label r token r')
    (hspan : label.span = token.span) (hspelled : (Node.label label).Spelled source) :
    Threads source r ((some label).toList.map (·.span)) r'.consumed ∧
      ∀ found, some label = some found → (Node.label found).Sourced source := by
  have hpassed : Threads source r [label.span] r'.consumed := by
    rw [hspan]
    exact h.threads
  have hwithin : label.span.Within source := by
    rw [hspan]
    exact h.within
  exact ⟨hpassed, fun found hfound => Option.some.inj hfound ▸ .leaf rfl hwithin hspelled⟩

/-- The label is passed, and where there is none nothing is. -/
theorem label_threads (hr : r.Sound) (hplaced : r.Placed source) :
    Ends label r (fun found r' => Threads source r (found.toList.map (·.span)) r' ∧
      ∀ label, found = some label → (Node.label label).Sourced source) fun _ _ => True := by
  unfold label
  apply (peek_spots hr hplaced .label).bind
  intro token r₁ h
  split
  · next hkind =>
      refine ends_bind.mpr (h.shows.advance_spec (by simp [hkind]) ?_)
      split
      · next parts hparts =>
          refine labelToken_threads h rfl ?_
          show CodeParts.ofText? (token.span.text source) = _
          rw [h.text_eq, hparts]
      · trivial
      · next hnone =>
          obtain ⟨parts, hparts, _⟩ := CodeParts.of_spells (hkind ▸ h.shows.spells h.sound)
          cases hnone.symm.trans hparts
  · next hkind =>
      refine ends_bind.mpr (h.shows.advance_spec (by simp [hkind]) ?_)
      have hvalue := (numberValue_spec token.text r₁.consumed).mono (fun _ _ hvalue => hvalue.1)
        fun _ _ _ => trivial
      apply hvalue.bind
      intro value r₂ hsame
      obtain rfl := hsame
      exact labelToken_threads h rfl h.text_eq
  · next hkind =>
      exact ends_bind.mpr (h.shows.advance_spec (by simp [hkind]) (labelToken_threads h rfl h.text_eq))
  · next hkind =>
      exact ends_bind.mpr (h.shows.advance_spec (by simp [hkind]) (labelToken_threads h rfl h.text_eq))
  · next hkind =>
      exact ends_bind.mpr (h.shows.advance_spec (by simp [hkind]) (labelToken_threads h rfl h.text_eq))
  · apply ends_ite.mpr
    constructor
    · intro _
      apply (constraints_threads h.sound h.skims.placed).bind
      intro label r₂ ⟨hlabel, hsourced⟩
      exact ⟨.after h.moves hlabel, fun found hfound => Option.some.inj hfound ▸ hsourced⟩
    · intro _
      exact ⟨.of_moves h.moves, by simp⟩

/-! ## Methods -/

namespace Segment

/-- The words of a segment. -/
def words : Segment → List Token
  | .bare name => [name]
  | .typed name type => [name, type]

/-- From the start of the first word of a segment to the end of the last. -/
def span : Segment → Span
  | .bare name => name.span
  | .typed name type => name.span.cover type.span

/-- An argument keeps the words that it is made of. -/
theorem words_of_ofWords {opening : Span} (words : List Token) (segment : Segment)
    (h : ofWords opening words = .ok segment) : segment.words = words := by
  obtain ⟨_, ⟨name, rfl, rfl⟩ | ⟨name, type, rfl, rfl⟩⟩ := ofWords_eq_ok.mp h
  · rfl
  · rfl

/-- Arguments stand where their segments do, wherever their types stand. -/
theorem spans_of_shareTypes {segments : List Segment} {arguments : List Argument}
    (h : shareTypes segments = .ok arguments) :
    arguments.map (·.span) = segments.map span := by
  induction segments generalizing arguments with
  | nil =>
      obtain rfl := Except.ok.inj h
      rfl
  | cons segment segments ih =>
      cases segment with
      | bare name =>
          simp only [shareTypes] at h
          split at h
          · cases h
          · obtain ⟨others, hothers, rfl⟩ := except_map_eq_ok.mp h
            rw [List.map_cons, List.map_cons, ih hothers, span]
      | typed name type =>
          obtain ⟨others, hothers, rfl⟩ := except_map_eq_ok.mp h
          rw [List.map_cons, List.map_cons, ih hothers, span]

variable {start stop : Int}

/-- Where words stand in a row so do the segments that they make. -/
theorem row_of_words {segments : List Segment}
    (h : Span.Row start ((segments.flatMap words).map (·.span)) stop) :
    Span.Row start (segments.map span) stop := by
  induction segments generalizing start with
  | nil => exact h
  | cons segment segments ih =>
      simp only [List.flatMap_cons, List.map_append] at h
      cases segment with
      | bare name =>
          simp only [words, List.map_cons, List.map_nil, List.cons_append, List.nil_append] at h
          cases h with
          | cons before le later => exact .cons before le (ih later)
      | typed name type =>
          simp only [words, List.map_cons, List.map_nil, List.cons_append, List.nil_append] at h
          cases h with
          | cons before le later =>
              cases later with
              | cons between le' later =>
                  have hstop : (name.span.cover type.span).stop = type.span.stop :=
                    Span.stop_cover_of_le (by omega)
                  refine .cons before ?_ ?_
                  · rw [span, hstop, Span.start_cover]
                    omega
                  · rw [span, hstop]
                    exact ih later

/-- Where words stand within the source so does the segment that they make. -/
theorem within_of_words {segment : Segment}
    (h : ∀ word ∈ segment.words, word.span.Within source) : segment.span.Within source := by
  cases segment with
  | bare name => exact h name (List.mem_singleton_self _)
  | typed name type =>
      exact (h name List.mem_cons_self).cover (h type (List.mem_cons_of_mem _ List.mem_cons_self))

end Segment

/-- The words between the commas stand in the order of the list. -/
theorem flatten_splitAtCommas (tokens : List Token) :
    (splitAtCommas tokens).flatten.Sublist tokens := by
  induction tokens with
  | nil => exact .refl _
  | cons token tokens ih =>
      unfold splitAtCommas
      split
      · exact .cons _ ih
      · split
        · exact .cons_cons _ (List.nil_sublist _)
        · next first further hsplit =>
            rw [hsplit] at ih
            exact .cons_cons _ ih

/-- The segment that is dropped has no words. -/
theorem flatten_dropTrailingComma (segments : List (List Token)) :
    (dropTrailingComma segments).flatten = segments.flatten := by
  unfold dropTrailingComma
  split
  · next hlast =>
      obtain ⟨others, rfl⟩ := List.getLast?_eq_some_iff.mp hlast.2
      simp
  · rfl

/-- Arguments stand where the segments do that they are made from. -/
theorem segments_of_resolveArguments {opening : Span} {tokens : List Token}
    {arguments : List Argument}
    (h : resolveArguments opening (splitAtCommas tokens) = .ok arguments) :
    ∃ segments : List Segment, (segments.flatMap Segment.words).Sublist tokens ∧
      arguments.map (·.span) = segments.map Segment.span := by
  obtain ⟨_, rfl⟩ | ⟨_, segments, hsegments, harguments⟩ := resolveArguments_cases h
  · exact ⟨[], List.nil_sublist _, rfl⟩
  · have hwords : segments.map Segment.words = dropTrailingComma (splitAtCommas tokens) :=
      map_of_mapM_eq_ok Segment.words_of_ofWords hsegments
    refine ⟨segments, ?_, ?_⟩
    · rw [List.flatMap_def, hwords, flatten_dropTrailingComma]
      exact flatten_splitAtCommas tokens
    · obtain ⟨hbare, rfl⟩ | ⟨_, hshared⟩ := harguments
      · rw [List.map_map]
        apply List.map_congr_left
        intro segment hsegment
        cases segment with
        | bare name => rfl
        | typed name type => cases List.all_eq_true.mp hbare _ hsegment
      · exact Segment.spans_of_shareTypes hshared

/-- Where the words of a list stand in a row so do the arguments that they stand for. -/
theorem threads_of_resolveArguments {opening : Span} {tokens : List Token} {arguments : List Argument}
    (h : Threads source r (tokens.map (·.span)) r')
    (harguments : resolveArguments opening (splitAtCommas tokens) = .ok arguments) :
    Threads source r (arguments.map (·.span)) r' ∧
      ∀ argument ∈ arguments, (Node.argument argument).Sourced source := by
  obtain ⟨segments, hsub, hspans⟩ := segments_of_resolveArguments harguments
  have hwords := h.sublist (hsub.map _)
  have hwithin : ∀ span ∈ arguments.map (·.span), span.Within source := by
    rw [hspans, List.forall_mem_map]
    intro segment hsegment
    apply Segment.within_of_words
    intro word hword
    exact hwords.within _ (List.mem_map_of_mem (List.mem_flatMap.mpr ⟨segment, hsegment, hword⟩))
  constructor
  · refine ⟨h.moves, ?_, hwithin⟩
    rw [hspans]
    exact Segment.row_of_words hwords.row
  · intro argument hargument
    exact .leaf rfl (hwithin _ (List.mem_map_of_mem hargument)) trivial

/-- A word of a list is threaded, if there is one. -/
theorem wordStep_threads (hr : r.Sound) (hplaced : r.Placed source) :
    Ends wordStep r (fun found r' =>
      Threads source r (found.toList.flatMap fun word => [word.span]) r' ∧
        ∀ word, found = some word → True) fun _ _ => True := by
  unfold wordStep
  apply (peek_spots hr hplaced .arguments).bind
  intro token r₁ h
  refine ends_ite.mpr ⟨fun _ => ⟨.of_moves h.moves, by simp⟩, fun _ => ?_⟩
  refine ends_ite.mpr ⟨fun _ => ?_, fun _ => trivial⟩
  apply (advance_threads h.sound h.skims.placed .arguments).bind
  intro word r₂ hword
  exact ⟨.after h.moves hword, fun _ _ => trivial⟩

/-- The arguments are passed, and the token that closes their list. -/
theorem argumentList_threads (hr : r.Sound) (hplaced : r.Placed source) :
    Ends argumentList r (fun found r' =>
      Threads source r (found.1.map (·.span) ++ [found.2.span]) r' ∧
        ∀ argument ∈ found.1, (Node.argument argument).Sourced source) fun _ _ => True := by
  rw [argumentList_eq]
  apply (expect_threads hr hplaced .arguments '(').bind
  intro opening r₁ h₁
  apply (many_threads (fun word => [word.span]) (fun _ => wordStep_threads) h₁.sound h₁.placed).bind
  intro words r₂ ⟨h₂, _⟩
  rw [← List.map_eq_flatMap] at h₂
  apply (advance_threads h₂.sound h₂.placed .arguments).bind
  intro closing r₃ h₃
  split
  · next arguments harguments =>
      obtain ⟨hpassed, hsourced⟩ := threads_of_resolveArguments h₂ harguments
      exact ⟨.after h₁.moves (hpassed.append h₃), hsourced⟩
  · trivial

/-- The spans of the parts of a method. -/
theorem spans_method (m : Method) : (Node.item (.method m)).parts.map Node.span =
    m.name.span :: (m.arguments.map (·.span) ++ (m.returns.getD []).map (·.span)) := by
  simp [Node.parts, Node.children, Function.comp_def, Node.span]

/-- The parts of a method are its name, its arguments and its results. -/
theorem forall_method {P : Node → Prop} {m : Method} (hname : P (.identifier m.name))
    (harguments : ∀ argument ∈ m.arguments, P (.argument argument))
    (hreturns : ∀ argument ∈ m.returns.getD [], P (.argument argument)) :
    ∀ part ∈ (Node.item (.method m)).children, P part := by
  simp only [Node.children, List.cons_append, List.forall_mem_cons, List.forall_mem_append,
    List.forall_mem_map]
  exact ⟨hname, harguments, hreturns⟩

/-- A method is sourced, with its name, arguments and results in a row within its span. -/
theorem methodFrom_threads {name : Identifier} (hname : Threads source r [name.span] r')
    (hsourced : (Node.identifier name).Sourced source) :
    Ends (methodFrom name) r' (fun method r'' => Threads source r [method.span] r'' ∧
      (Node.item (.method method)).Sourced source) fun _ _ => True := by
  unfold methodFrom
  apply (argumentList_threads hname.sound hname.placed).bind
  intro ⟨arguments, closing⟩ r₁ ⟨h₁, harguments⟩
  apply (peekSameLine_spots h₁.sound h₁.placed .declaration).bind
  intro seen r₂ ⟨token, h₂, hseen⟩
  apply ends_ite.mpr
  constructor
  · intro hmark
    obtain ⟨found, rfl, hcolon⟩ := isMark_eq_true.mp hmark
    obtain rfl := hseen found rfl
    have h₃ := h₂.moves_consumed
    refine ends_bind.mpr (h₂.shows.advance_spec (Token.kind_ne_eof_of_isPunct hcolon) ?_)
    apply (argumentList_threads h₃.sound h₃.placed).bind
    intro ⟨returns, ending⟩ r₄ ⟨h₄, hreturns⟩
    have hall : Threads source r (name.span :: (arguments.map (·.span) ++ [closing.span] ++
        (returns.map (·.span) ++ [ending.span]))) r₄ :=
      hname.append (h₁.append (.after h₃ h₄))
    refine hall.node (.item (.method _)) ?_ ?_ (forall_method hsourced harguments hreturns)
      trivial
    · rw [← List.append_assoc, List.getLast?_concat]
      rfl
    · rw [spans_method]
      exact .cons_cons _ (.append (List.sublist_append_left _ _) (List.sublist_append_left _ _))
  · intro _
    have hall : Threads source r (name.span :: (arguments.map (·.span) ++ [closing.span])) r₂ :=
      (hname.append h₁).trans h₂.moves
    refine hall.node (.item (.method _)) ?_ ?_ (forall_method hsourced harguments (by simp))
      trivial
    · rw [List.getLast?_concat]
      rfl
    · rw [spans_method]
      exact .cons_cons _ (.append (.refl _) (List.nil_sublist _))

/-! ## Statements -/

/-- An item that is read is passed and sourced; of a block that opens the target, the label and the
brace are passed, and the target and the label are sourced. -/
def Statement.Threads (source : Text) (r : Reader) : Statement → Reader → Prop
  | .item read, r' =>
    Reader.Threads source r [(Node.item read).span] r' ∧ (Node.item read).Sourced source
  | .opening target label brace, r' =>
    Reader.Threads source r (target.span :: (label.toList.map (·.span) ++ [brace.span])) r' ∧
      target.node.Sourced source ∧ ∀ found, label = some found → (Node.label found).Sourced source

@[simp] theorem span_target (target : Target) : target.node.span = target.span := by
  cases target <;> rfl

/-- The spans of the parts of a declaration. -/
theorem spans_declaration (d : Declaration) : (Node.item (.declaration d)).parts.map Node.span =
    d.target.span :: (d.label.toList.map (·.span) ++ d.imported.toList.map (·.span)) := by
  simp only [Node.parts, Node.children, Node.ofLabel, Node.ofImport, List.cons_append,
    List.map_cons, List.map_append, List.map_map, span_target]
  rfl

/-- The parts of a declaration are its target, its label and its import. -/
theorem forall_declaration {P : Node → Prop} {d : Declaration} (htarget : P d.target.node)
    (hlabel : ∀ label, d.label = some label → P (.label label))
    (himported : ∀ imported, d.imported = some imported → P (.item (.importing imported))) :
    ∀ part ∈ (Node.item (.declaration d)).children, P part := by
  simp only [Node.children, Node.ofLabel, Node.ofImport, List.cons_append, List.forall_mem_cons,
    List.forall_mem_append, List.forall_mem_map, Option.mem_toList]
  exact ⟨htarget, hlabel, himported⟩

/-- The import that a spotted token stands for is sourced. -/
theorem sourced_importOf {mode : Mode} {token : Token} (h : Spots source mode r token r')
    (hkind : token.kind = .importRef) : (Node.item (.importing (importOf token))).Sourced source := by
  have himport := IsImport.of_spells (hkind ▸ h.shows.spells h.sound)
  refine .leaf rfl h.within ?_
  show token.span.text source = (importOf token).canonical
  rw [canonical_importOf himport]
  exact h.text_eq

/-- The end of a statement moves the reader on. -/
theorem finish_moves (hr : r.Sound) (hplaced : r.Placed source) (wanted : Text)
    (others : List Text) :
    Ends (finish wanted others) r (fun _ r' => Moves source r r') fun _ _ => True :=
  (finish_skims hr hplaced wanted others).imp fun _ _ h => h.2.moves h.1

/-- Once its line is finished a declaration is passed in the place of its parts, and of what stood
between them. -/
theorem finish_declaration_threads {d : Declaration} (h : Threads source r (d.target.span :: others) r')
    (hspan : d.span = d.target.span.cover (others.getLast?.getD d.target.span))
    (hparts : (d.label.toList.map (·.span) ++ d.imported.toList.map (·.span)).Sublist others)
    (htarget : d.target.node.Sourced source)
    (hlabel : ∀ label, d.label = some label → (Node.label label).Sourced source)
    (himported : ∀ imported, d.imported = some imported →
      (Node.item (.importing imported)).Sourced source)
    (wanted : Text) (lines : List Text) :
    Ends (finish wanted lines >>= fun _ => pure (Statement.item (.declaration d))) r'
      (fun read r'' => read.Threads source r r'') fun _ _ => True := by
  apply (finish_moves h.sound h.placed wanted lines).bind
  intro _ r'' hmoves
  refine (h.trans hmoves).node (.item (.declaration d)) hspan ?_
    (forall_declaration htarget hlabel himported) trivial
  rw [spans_declaration]
  exact .cons_cons _ hparts

section
variable {target : Target} {colon : Span} {label : Option Label}
  (htarget : target.node.Sourced source)

include htarget

/-- What follows a label threads the statement from its target to its end. -/
theorem declarationAfterLabel_threads
    (h : Threads source r (target.span :: colon :: label.toList.map (·.span)) r')
    (hlabel : ∀ found, label = some found → (Node.label found).Sourced source) :
    Ends (declarationAfterLabel target colon label) r' (fun read r'' => read.Threads source r r'')
      fun _ _ => True := by
  unfold declarationAfterLabel
  apply (peekSameLine_spots h.sound h.placed .label).bind
  intro seen r₁ ⟨token, h₁, _⟩
  apply ends_ite.mpr
  constructor
  · intro _
    apply (expect_threads h₁.sound h₁.skims.placed .label _).bind
    intro brace r₂ h₂
    have hhead := h.sublist (.cons_cons target.span (.cons colon (.refl _)))
    exact ⟨(hhead.trans h₁.moves).append h₂, htarget, hlabel⟩
  · intro _
    split
    · next found =>
        exact finish_declaration_threads (h.trans h₁.moves) rfl (.cons _ (.refl _)) htarget hlabel
          (by simp) _ _
    · refine finish_declaration_threads (h.trans h₁.moves) rfl ?_ htarget (by simp) (by simp) _ _
      exact List.nil_sublist _

/-- What follows a colon threads the statement from its target to its end. -/
theorem declarationAfterColon_threads (h : Threads source r [target.span, colon] r') :
    Ends (declarationAfterColon target colon) r' (fun read r'' => read.Threads source r r'')
      fun _ _ => True := by
  unfold declarationAfterColon
  apply (peekSameLine_spots h.sound h.placed .label).bind
  intro seen r₁ ⟨token, h₁, hseen⟩
  split
  · refine finish_declaration_threads (h.trans h₁.moves) rfl ?_ htarget (by simp) (by simp) _ _
    exact List.nil_sublist _
  · next found =>
      obtain rfl := hseen found rfl
      apply ends_ite.mpr
      constructor
      · intro hkind
        refine ends_bind.mpr (h₁.shows.advance_spec (by simp [hkind]) ?_)
        have hsourced : ∀ imported, some (importOf found) = some imported →
            (Node.item (.importing imported)).Sourced source :=
          fun imported heq => Option.some.inj heq ▸ sourced_importOf h₁ hkind
        exact finish_declaration_threads (h.append h₁.threads) rfl (.cons _ (.refl _)) htarget
          (by simp) hsourced _ _
      · intro _
        apply (label_threads h₁.sound h₁.skims.placed).bind
        intro label r₂ ⟨h₂, hlabel⟩
        exact declarationAfterLabel_threads htarget ((h.trans h₁.moves).append h₂) hlabel

/-- What follows a target threads the statement to its end. -/
theorem declarationFrom_threads (h : Threads source r [target.span] r') :
    Ends (declarationFrom target) r' (fun read r'' => read.Threads source r r'')
      fun _ _ => True := by
  unfold declarationFrom
  apply (peekSameLine_spots h.sound h.placed .declaration).bind
  intro seen r₁ ⟨token, h₁, hseen⟩
  apply ends_ite.mpr
  constructor
  · intro hmark
    obtain ⟨found, rfl, hcolon⟩ := isMark_eq_true.mp hmark
    obtain rfl := hseen found rfl
    refine ends_bind.mpr (h₁.shows.advance_spec (Token.kind_ne_eof_of_isPunct hcolon) ?_)
    exact declarationAfterColon_threads htarget (h.append h₁.threads)
  · intro _
    exact finish_declaration_threads (h.trans h₁.moves) (Span.cover_self _).symm (.refl _) htarget
      (by simp) (by simp) _ _

end

/-- The statement ahead is passed, and what it hands over is sourced. -/
theorem statement_threads (hr : r.Sound) (hplaced : r.Placed source) :
    Ends statement r (fun read r' => read.Threads source r r') fun _ _ => True := by
  unfold statement
  apply (peek_spots hr hplaced .declaration).bind
  intro token r₁ h₁
  refine ends_ite.mpr ⟨fun hkind => ?_, fun _ => ends_ite.mpr ⟨fun _ => ?_, fun _ => ?_⟩⟩
  · refine ends_bind.mpr (h₁.shows.advance_spec (by simp [hkind]) ?_)
    apply (finish_moves h₁.threads.sound h₁.threads.placed _ _).bind
    intro _ r₂ h₂
    exact ⟨h₁.threads.trans h₂, sourced_importOf h₁ hkind⟩
  · apply (reference_threads h₁.sound h₁.skims.placed).bind
    intro reference r₂ ⟨h₂, hsourced⟩
    have htarget : (Target.reference reference).node.Sourced source := hsourced
    exact declarationFrom_threads htarget (.after h₁.moves h₂)
  · apply (identifier_threads h₁.sound h₁.skims.placed).bind
    intro first r₂ ⟨h₂, hfirst⟩
    have hname := Threads.after h₁.moves h₂
    apply (peekSameLine_spots h₂.sound h₂.placed .declaration).bind
    intro seen r₃ ⟨next, h₃, _⟩
    refine ends_ite.mpr ⟨fun _ => ?_, fun _ => ?_⟩
    · apply (methodFrom_threads (hname.trans h₃.moves) hfirst).bind
      intro method r₄ ⟨h₄, hsourced⟩
      apply (finish_moves h₄.sound h₄.placed _ _).bind
      intro _ r₅ h₅
      exact ⟨h₄.trans h₅, hsourced⟩
    · apply (expressionFrom_threads (hname.trans h₃.moves) hfirst).bind
      intro expression r₄ ⟨h₄, hsourced⟩
      have htarget : (Target.expression expression).node.Sourced source := hsourced
      exact declarationFrom_threads htarget h₄

end Grammar

end DiagramText
