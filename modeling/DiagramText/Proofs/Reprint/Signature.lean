import DiagramText.Proofs.Reprint.Name

/-!
# Methods that are printed are read again

The canonical source of a list of arguments is a row of words and commas.  A list
that was read has a type at each argument or at none, so that the words between
the commas stand for the arguments they were printed from, and no type is shared.
-/

namespace DiagramText

open Grammar Reader

/-! ## Words between commas -/

/-- The words of an argument: its name, and its type if it has one. -/
def Argument.words (argument : Argument) : List Text :=
  argument.name :: argument.type.toList

/-- The words and commas of a list of arguments, a comma standing as `none`. -/
def Argument.pieces : List Argument → List (Option Text)
  | [] => []
  | first :: others =>
    first.words.map .some ++ others.flatMap fun argument => none :: argument.words.map .some

/-- The source of a word, with a blank before it, or of a comma. -/
def pieceSource : Option Text → Text
  | none => [',']
  | some word => ' ' :: word

/-- The piece that a token is. -/
def Token.piece (token : Token) : Option Text :=
  if token.isPunct ',' then none else some token.text

/-- A token that is no word of an argument is a comma. -/
theorem Token.piece_eq_none {token : Token} (h : token.piece = none) : token.isPunct ',' = true := by
  unfold Token.piece at h
  split at h
  · assumption
  · cases h

/-- A token that is a word of an argument is no comma, and has its text. -/
theorem Token.piece_eq_some {token : Token} {word : Text} (h : token.piece = some word) :
    token.isPunct ',' = false ∧ token.text = word := by
  unfold Token.piece at h
  split at h
  · cases h
  · next hcomma => exact ⟨Bool.eq_false_iff.mpr hcomma, Option.some.inj h⟩

/-- Tokens that stand for words are no commas, and have the texts of the words. -/
theorem plain_of_pieces {tokens : List Token} {words : List Text}
    (h : tokens.map (·.piece) = words.map .some) :
    (∀ token ∈ tokens, token.isPunct ',' = false) ∧ tokens.map (·.text) = words := by
  induction tokens generalizing words with
  | nil =>
      cases words with
      | nil => simp
      | cons => cases h
  | cons token tokens ih =>
      cases words with
      | nil => cases h
      | cons word words =>
          obtain ⟨hpiece, hlater⟩ := List.cons.inj h
          obtain ⟨hplain, htext⟩ := Token.piece_eq_some hpiece
          obtain ⟨hothers, htexts⟩ := ih hlater
          exact ⟨List.forall_mem_cons.mpr ⟨hplain, hothers⟩, by rw [List.map_cons, htext, htexts]⟩

/-- Words up to the first comma stand together. -/
theorem splitAtCommas_append {words : List Token} (h : ∀ token ∈ words, token.isPunct ',' = false)
    (tokens : List Token) :
    splitAtCommas (words ++ tokens) =
      match splitAtCommas tokens with
      | [] => [words]
      | first :: further => (words ++ first) :: further := by
  induction words with
  | nil =>
      cases hsplit : splitAtCommas tokens with
      | nil =>
          cases tokens with
          | nil => cases hsplit
          | cons token tokens =>
              unfold splitAtCommas at hsplit
              split at hsplit
              · cases hsplit
              · split at hsplit <;> cases hsplit
      | cons first further => simpa using hsplit
  | cons word words ih =>
      rw [List.forall_mem_cons] at h
      rw [List.cons_append, splitAtCommas, if_neg (by simp [h.1]), ih h.2]
      cases splitAtCommas tokens <;> rfl

/-- Words without a comma are one group. -/
theorem splitAtCommas_plain {words : List Token} (h : ∀ token ∈ words, token.isPunct ',' = false) :
    splitAtCommas words = [words] := by
  have := splitAtCommas_append h []
  simpa [splitAtCommas] using this

/-- The words before a comma are the first group. -/
theorem splitAtCommas_comma {words : List Token} (h : ∀ token ∈ words, token.isPunct ',' = false)
    {comma : Token} (hcomma : comma.isPunct ',' = true) (tokens : List Token) :
    splitAtCommas (words ++ comma :: tokens) = words :: splitAtCommas tokens := by
  rw [splitAtCommas_append h, splitAtCommas, if_pos hcomma]
  simp

/-- Between the commas of a list of arguments stand the words of each. -/
theorem words_of_pieces {first : Argument} {others : List Argument} {tokens : List Token}
    (h : tokens.map (·.piece) = Argument.pieces (first :: others)) :
    (splitAtCommas tokens).map (·.map (·.text)) = (first :: others).map (·.words) := by
  induction others generalizing first tokens with
  | nil =>
      rw [Argument.pieces, List.flatMap_nil, List.append_nil] at h
      obtain ⟨hplain, htexts⟩ := plain_of_pieces h
      rw [splitAtCommas_plain hplain, List.map_singleton, htexts, List.map_singleton]
  | cons next others ih =>
      rw [Argument.pieces, List.flatMap_cons, List.cons_append] at h
      obtain ⟨words, later, rfl, hwords, hlater⟩ := List.map_eq_append_iff.mp h
      obtain ⟨comma, tokens, rfl, hcomma, htokens⟩ := List.map_eq_cons_iff.mp hlater
      obtain ⟨hplain, htexts⟩ := plain_of_pieces hwords
      rw [splitAtCommas_comma hplain (Token.piece_eq_none hcomma), List.map_cons, htexts, ih htokens]
      rfl

/-! ## The arguments that words stand for -/

namespace Grammar.Segment

/-- The argument of a segment that takes no type from another. -/
def argument : Segment → Argument
  | .bare name => ⟨name.text, none, .nowhere⟩
  | .typed name type => ⟨name.text, some type.text, .nowhere⟩

/-- A bare segment makes an argument without a type. -/
theorem isBare_iff (segment : Segment) :
    segment.isBare = true ↔ segment.argument.type = none := by
  cases segment <;> simp [isBare, argument]

/-- The words of an argument are a segment of it. -/
theorem ofWords_words {argument : Argument} (h : argument.Written) {words : List Token}
    (hwords : words.map (·.text) = argument.words) (opening : Span) :
    ∃ segment, ofWords opening words = .ok segment ∧ segment.argument = argument.bare := by
  obtain ⟨name, type, span⟩ := argument
  obtain ⟨token, others, rfl, htext, hothers⟩ := List.map_eq_cons_iff.mp hwords
  cases type with
  | none =>
      obtain rfl := List.map_eq_nil_iff.mp hothers
      refine ⟨.bare token, ofWords_eq_ok.mpr ⟨?_, .inl ⟨token, rfl, rfl⟩⟩, ?_⟩
      · exact htext ▸ h.name
      · simp [Segment.argument, Argument.bare, htext]
  | some type =>
      obtain ⟨typeToken, further, rfl, htype, hfurther⟩ := List.map_eq_cons_iff.mp hothers
      obtain rfl := List.map_eq_nil_iff.mp hfurther
      refine ⟨.typed token typeToken, ofWords_eq_ok.mpr ⟨?_, .inr ⟨token, typeToken, rfl, rfl⟩⟩, ?_⟩
      · exact htext ▸ h.name
      · simp [Segment.argument, Argument.bare, htext, htype]

/-- Each group of words makes its argument again. -/
theorem mapM_ofWords {arguments : List Argument} (h : ∀ argument ∈ arguments, argument.Written)
    {groups : List (List Token)}
    (hgroups : groups.map (·.map (·.text)) = arguments.map (·.words)) (opening : Span) :
    ∃ segments, groups.mapM (ofWords opening) = .ok segments ∧
      segments.map (·.argument) = arguments.map (·.bare) := by
  induction arguments generalizing groups with
  | nil =>
      obtain rfl := List.map_eq_nil_iff.mp hgroups
      exact ⟨[], rfl, rfl⟩
  | cons argument arguments ih =>
      rw [List.forall_mem_cons] at h
      obtain ⟨words, groups, rfl, hwords, hlater⟩ := List.map_eq_cons_iff.mp hgroups
      obtain ⟨segment, hsegment, hargument⟩ := ofWords_words h.1 hwords opening
      obtain ⟨segments, hsegments, harguments⟩ := ih h.2 hlater
      refine ⟨segment :: segments, ?_, by rw [List.map_cons, hargument, harguments, List.map_cons]⟩
      rw [List.mapM_cons, hsegment, hsegments]
      rfl

/-- A segment has a type where the argument that it stands for has one. -/
theorem exists_argument {segments : List Segment} {arguments : List Argument}
    (h : segments.map (·.argument) = arguments.map (·.bare)) :
    ∀ segment ∈ segments, ∃ argument ∈ arguments, segment.isBare = true ↔ argument.type = none := by
  intro segment hsegment
  have hmem := List.mem_map_of_mem (f := Segment.argument) hsegment
  rw [h] at hmem
  obtain ⟨argument, hargument, heq⟩ := List.mem_map.mp hmem
  refine ⟨argument, hargument, ?_⟩
  rw [isBare_iff, ← heq]
  rfl

/-- Segments without a type are the arguments that they stand for. -/
theorem map_bare_of_untyped {segments : List Segment} (h : segments.all (·.isBare) = true) :
    (segments.map fun segment => (⟨segment.name.text, none, segment.name.span⟩ : Argument)).map
      (·.bare) = segments.map (·.argument) := by
  rw [List.map_map]
  refine List.map_congr_left fun segment hsegment => ?_
  have hbare := List.all_eq_true.mp h segment hsegment
  cases segment with
  | bare name => rfl
  | typed => cases hbare

/-- Where each segment has a type none is shared. -/
theorem shareTypes_typed {segments : List Segment}
    (h : ∀ segment ∈ segments, segment.isBare = false) :
    ∃ arguments, shareTypes segments = .ok arguments ∧
      arguments.map (·.bare) = segments.map (·.argument) := by
  induction segments with
  | nil => exact ⟨[], rfl, rfl⟩
  | cons segment segments ih =>
      rw [List.forall_mem_cons] at h
      obtain ⟨arguments, hshared, harguments⟩ := ih h.2
      cases segment with
      | bare name => cases h.1
      | typed name type =>
          refine ⟨_, by rw [shareTypes, hshared]; rfl, ?_⟩
          rw [List.map_cons, List.map_cons, harguments]
          rfl

end Grammar.Segment

/-- No list of words that is an argument's is empty, so nothing is dropped. -/
theorem dropTrailingComma_words {arguments : List Argument} {groups : List (List Token)}
    (h : groups.map (·.map (·.text)) = arguments.map (·.words)) :
    dropTrailingComma groups = groups := by
  unfold dropTrailingComma
  rw [if_neg]
  rintro ⟨_, hlast⟩
  have hmem := List.mem_of_getLast? hlast
  have := List.mem_map_of_mem (f := fun group : List Token => group.map (·.text)) hmem
  rw [h] at this
  obtain ⟨argument, _, hwords⟩ := List.mem_map.mp this
  cases hwords

/-- The words and commas of a list of arguments that was read stand for the arguments. -/
theorem resolveArguments_pieces {arguments : List Argument} (h : Argument.AllWritten arguments)
    {tokens : List Token} (htokens : tokens.map (·.piece) = Argument.pieces arguments)
    (opening : Span) :
    ∃ found, resolveArguments opening (splitAtCommas tokens) = .ok found ∧
      found.map (·.bare) = arguments.map (·.bare) := by
  cases arguments with
  | nil =>
      obtain rfl := List.map_eq_nil_iff.mp htokens
      exact ⟨[], rfl, rfl⟩
  | cons first others =>
      have hwords := words_of_pieces htokens
      have hfilled : splitAtCommas tokens ≠ [[]] := by
        intro hempty
        rw [hempty] at hwords
        cases hwords
      obtain ⟨segments, hsegments, harguments⟩ := Segment.mapM_ofWords h.each hwords opening
      rw [resolveArguments_of_segments hfilled (by rw [dropTrailingComma_words hwords, hsegments])]
      have htypes := Segment.exists_argument harguments
      rcases h.alike with huntyped | htyped
      · have hbare : segments.all (·.isBare) = true := by
          refine List.all_eq_true.mpr fun segment hsegment => ?_
          obtain ⟨argument, hmem, htype⟩ := htypes segment hsegment
          exact htype.mpr (huntyped argument hmem)
        exact ⟨_, if_pos hbare, (Segment.map_bare_of_untyped hbare).trans harguments⟩
      · have hbare : ∀ segment ∈ segments, segment.isBare = false := by
          intro segment hsegment
          obtain ⟨argument, hmem, htype⟩ := htypes segment hsegment
          exact Bool.eq_false_iff.mpr fun hbare => htyped argument hmem (htype.mp hbare)
        have hsome : segments ≠ [] := by
          rintro rfl
          cases harguments
        have hall : ¬ segments.all (·.isBare) = true := by
          obtain ⟨segment, later, rfl⟩ := List.exists_cons_of_ne_nil hsome
          simp [hbare segment List.mem_cons_self]
        obtain ⟨found, hshared, hfound⟩ := Segment.shareTypes_typed hbare
        exact ⟨found, (if_neg hall).trans hshared, hfound.trans harguments⟩

/-! ## Lists of arguments -/

/-- A character that may stand in a word of a list of arguments. -/
def isArgumentWord (c : Char) : Bool :=
  isPlainWord c || c == '[' || c == ']'

/-- A piece ends the word before it. -/
theorem pieceSource_begins (piece : Option Text) (u : Text) :
    Text.Begins (fun c => isArgumentWord c = false) (pieceSource piece ++ u) := by
  cases piece <;> exact Text.begins_cons.mpr (by decide)

/-- Each word of a list that was read is one. -/
theorem Argument.AllWritten.pieces {arguments : List Argument} (h : AllWritten arguments) :
    ∀ word, some word ∈ Argument.pieces arguments → word ≠ [] ∧ word.all isArgumentWord = true := by
  have hword : ∀ argument ∈ arguments, ∀ word ∈ argument.words,
      word ≠ [] ∧ word.all isArgumentWord = true := by
    intro argument hargument word hword
    have hwritten := h.each argument hargument
    rcases List.mem_cons.mp hword with rfl | htype
    · refine ⟨hwritten.name.1, List.all_eq_true.mpr fun c hc => ?_⟩
      have := List.all_eq_true.mp hwritten.name.2 c hc
      simp [isArgumentWord, this]
    · exact Mode.lists_arguments.all_of_spells (hwritten.type word (Option.mem_toList.mp htype))
  intro word hmem
  cases arguments with
  | nil => cases hmem
  | cons first others =>
      simp only [Argument.pieces, List.mem_append, List.mem_map, Option.some.injEq, exists_eq_right,
        List.mem_flatMap, List.mem_cons, reduceCtorEq, false_or] at hmem
      rcases hmem with hfirst | ⟨argument, hargument, hmem⟩
      · exact hword first List.mem_cons_self word hfirst
      · exact hword argument (List.mem_cons_of_mem _ hargument) word hmem

/-- A mark of a signature is cut whole. -/
theorem argumentMark_cuts {mark : Char} (h : mark ∈ ['(', ')', ',', ':']) (u : Text) :
    Mode.arguments.Cuts (mark :: u) .punct [mark] u := by
  refine .of_scan (x := [mark]) (Mode.lists_arguments.scan_mark h ?_ u) rfl
  rintro rfl
  exact absurd h (by decide)

/-- A word of a signature is cut whole, up to what no word goes on with. -/
theorem argumentWord_cuts {word u : Text} (hword : word ≠ [] ∧ word.all isArgumentWord = true)
    (hu : Text.Begins (fun c => isArgumentWord c = false) u) :
    Mode.arguments.Cuts (word ++ u) .ident word u :=
  .of_scan (Mode.lists_arguments.scan_word (by decide) hword.1 hword.2 hu) rfl

/-- A word or a comma that is printed is read again. -/
theorem wordStep_reads {piece : Option Text} {u : Text}
    (hpiece : ∀ word, piece = some word → word ≠ [] ∧ word.all isArgumentWord = true)
    (hu : Text.Begins (fun c => isArgumentWord c = false) u) :
    Reads wordStep (pieceSource piece ++ u)
      fun found r => (∃ token, found = some token ∧ token.piece = piece) ∧ r.At u := by
  unfold wordStep
  cases piece with
  | none =>
      have hcuts : Mode.arguments.Cuts (',' :: u) .punct [','] u := argumentMark_cuts (by simp) u
      refine (peek_reads hcuts).bind fun token htoken => ?_
      rw [if_neg (by simp [isPunct_eq htoken]), if_pos (by simp [isPunct_eq htoken])]
      refine (advance_reads hcuts (by decide)).bind fun token htoken => reads_pure ⟨token, rfl, ?_⟩
      rw [Token.piece, if_pos (by simp [isPunct_eq htoken])]
  | some word =>
      have hcuts := (argumentWord_cuts (hpiece word rfl) hu).space
      refine (peek_reads hcuts).bind fun token htoken => ?_
      rw [if_neg (by simp [isPunct_eq htoken]), if_pos (by simp [htoken.1])]
      refine (advance_reads hcuts (by decide)).bind fun token htoken => reads_pure ⟨token, rfl, ?_⟩
      rw [Token.piece, if_neg (by simp [isPunct_eq htoken]), htoken.2]

/-- No word is read before the closing parenthesis. -/
theorem wordStep_stops (u : Text) :
    Reads wordStep (')' :: u) fun found r => found = none ∧ r.At (')' :: u) := by
  unfold wordStep
  refine (peek_reads (argumentMark_cuts (by simp) u)).bind fun token htoken => ?_
  rw [if_pos (by simp [isPunct_eq htoken])]
  exact reads_pure rfl

/-- Blanks apart the source of a list of arguments is the row of its pieces between parentheses. -/
theorem Argument.canonicalList_pieces (arguments : List Argument) (u : Text) :
    ∃ body, canonicalList arguments ++ u = '(' :: body ∧
      Mode.unindent body = Mode.unindent ((pieces arguments).flatMap pieceSource ++ ')' :: u) := by
  have hwords : ∀ argument : Argument,
      ' ' :: argument.canonical = (argument.words.map Option.some).flatMap pieceSource := by
    rintro ⟨name, _ | type, span⟩ <;> simp [canonical, words, pieceSource]
  have hothers : ∀ others : List Argument,
      (others.map (·.canonical)).flatMap ([',', ' '] ++ ·) =
        (others.flatMap fun argument => none :: argument.words.map Option.some).flatMap pieceSource := by
    intro others
    rw [List.flatMap_map, List.flatMap_assoc]
    refine congrArg (others.flatMap ·) (funext fun argument => ?_)
    rw [List.flatMap_cons, ← hwords]
    rfl
  cases arguments with
  | nil => exact ⟨_, rfl, rfl⟩
  | cons first others =>
      refine ⟨first.canonical ++ ((others.map (·.canonical)).flatMap ([',', ' '] ++ ·) ++ ')' :: u),
        by simp [canonicalList, Text.join_cons], ?_⟩
      rw [hothers, pieces, List.flatMap_append, ← hwords, List.append_assoc, List.cons_append,
        Mode.unindent_space]

/-- A list of arguments that is printed is read again. -/
theorem argumentList_reads {arguments : List Argument} (h : Argument.AllWritten arguments)
    (u : Text) :
    Reads argumentList (Argument.canonicalList arguments ++ u)
      fun found r => found.1.map (·.bare) = arguments.map (·.bare) ∧ r.At u := by
  obtain ⟨body, hsource, hbody⟩ := Argument.canonicalList_pieces arguments u
  rw [hsource, argumentList_eq]
  refine (expect_reads (argumentMark_cuts (by simp) body)).bind fun opening _ => ?_
  refine Reads.bind (Reads.congr (many_reads (K := Token.piece) (L := fun piece => piece)
    (E := Text.Begins fun c => isArgumentWord c = false) (fun _ => wordStep_spec)
    (Text.begins_cons.mpr (by decide)) (fun piece _ rest _ => pieceSource_begins piece rest)
    (wordStep_stops u) ?_) hbody) fun tokens htokens => ?_
  · intro piece hpiece rest hrest
    refine wordStep_reads (fun word hword => ?_) hrest
    exact h.pieces word (hword ▸ hpiece)
  · rw [List.map_id'] at htokens
    refine (advance_reads (argumentMark_cuts (by simp) u) (by decide)).bind fun closing _ => ?_
    obtain ⟨found, hfound, harguments⟩ := resolveArguments_pieces h htokens opening.span
    rw [hfound]
    exact reads_pure harguments

/-! ## Methods -/

/-- The results after a colon. -/
def Method.returnsSource (method : Method) : Text :=
  match method.returns with
  | none => []
  | some returns => [':', ' '] ++ Argument.canonicalList returns

/-- A method is printed as its name, its arguments and what it returns. -/
theorem Method.canonical_eq (method : Method) :
    method.canonical =
      method.name.canonical ++ (Argument.canonicalList method.arguments ++ method.returnsSource) :=
  List.append_assoc ..

/-- The arguments and the results that are printed behind a name are read again. -/
theorem methodFrom_reads {method : Method} (h : method.Written) {name : Identifier}
    (hname : name.bare = method.name.bare) :
    Reads (methodFrom name)
      (Argument.canonicalList method.arguments ++ method.returnsSource)
      fun found r => found.bare = method.bare ∧ r.At [] := by
  unfold methodFrom Method.returnsSource
  refine (argumentList_reads h.arguments _).bind ?_
  rintro ⟨arguments, closing⟩ harguments
  cases hreturns : method.returns with
  | none =>
      refine (peekSameLine_reads (Mode.cuts_nil .declaration)).bind ?_
      rintro seen ⟨token, rfl, htoken⟩
      rw [if_neg (not_isMark htoken (by simp))]
      refine reads_pure ?_
      simp only [Method.bare, hname, harguments, hreturns, Option.map_none]
  | some returns =>
      have hcuts := cuts_colon (' ' :: Argument.canonicalList returns)
      refine (peekSameLine_reads hcuts).bind ?_
      rintro seen ⟨token, rfl, htoken⟩
      rw [if_pos (isMark_of_text htoken)]
      refine (advance_reads hcuts (by decide)).bind fun _ _ => ?_
      have hlist := argumentList_reads (h.returns returns hreturns) []
      rw [List.append_nil] at hlist
      refine hlist.space.bind ?_
      rintro ⟨found, last⟩ hfound
      refine reads_pure ?_
      simp only [Method.bare, hname, harguments, hreturns, hfound, Option.map_some]

end DiagramText
