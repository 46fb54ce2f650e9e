import DiagramText.Proofs.Grammar.Threads
import DiagramText.Proofs.Reprint.Signature

/-!
# Arguments take the types behind them

Which lists of words between commas stand for arguments is told by the number of
words in each and the characters of their first words: `Segment.Malformed` says
it of the words of one argument, `LacksType` of the list.  The arguments that a
list stands for have the first words as names, and as types the second words at
or behind them (`SharesTypes`).  Printed, they are read again.

The program keeps the names that wait for a type and hands it to them when it
comes (`Segment.assignTypes`).  The proofs look ahead for it instead, by
recursion over the segments (`Segment.assignTypes_eq_shareTypes`).
-/

namespace DiagramText

open Reader

namespace Grammar

/-! ## Words -/

/-- A word of a list of arguments is one wherever it stands. -/
theorem spells_of_isArgumentWord {word : Text}
    (h : word ≠ [] ∧ word.all isArgumentWord = true) : Mode.arguments.Spells .ident word :=
  ⟨[], Mode.lists_arguments.scan_word (by decide) h.1 h.2 Text.Begins.nil⟩

/-- Only brackets keep a word of a list from being a plain one. -/
theorem not_isPlainWord_iff {word : Text} (h : word.all isArgumentWord = true) :
    word.all isPlainWord = false ↔ '[' ∈ word ∨ ']' ∈ word := by
  rw [List.all_eq_false]
  constructor
  · rintro ⟨c, hc, hplain⟩
    have hword := List.all_eq_true.mp h c hc
    simp only [isArgumentWord, Bool.or_eq_true, beq_iff_eq] at hword
    rcases hword with (hword | rfl) | rfl
    · exact absurd hword hplain
    · exact .inl hc
    · exact .inr hc
  · rintro (hc | hc)
    · exact ⟨_, hc, by decide⟩
    · exact ⟨_, hc, by decide⟩

/-! ## The words of one argument -/

namespace Segment

/-- Words that are no argument: none, more than two, or a first one with a bracket. -/
inductive Malformed : List Token → Prop
  | empty : Malformed []
  | surplus {words : List Token} (more : 2 < words.length) : Malformed words
  | bracket {name : Token} {others : List Token} (here : '[' ∈ name.text ∨ ']' ∈ name.text) :
      Malformed (name :: others)

/-- An argument is rejected where its words are none, too many, or not plain. -/
theorem ofWords_fails_iff {opening : Span} {words : List Token}
    (hwords : ∀ word ∈ words, word.text ≠ [] ∧ word.text.all isArgumentWord = true) :
    (∃ error, ofWords opening words = .error error) ↔ Malformed words := by
  constructor
  · rintro ⟨error, h⟩
    have hbracket : ∀ name ∈ words, (name.text = [] ∨ (!name.text.all isPlainWord) = true) →
        '[' ∈ name.text ∨ ']' ∈ name.text := by
      intro name hname hcheck
      obtain ⟨hsome, hall⟩ := hwords name hname
      refine (not_isPlainWord_iff hall).mp ?_
      simpa only [hsome, false_or, Bool.not_eq_true'] using hcheck
    rcases words with _ | ⟨name, _ | ⟨type, _ | ⟨third, others⟩⟩⟩
    · exact .empty
    · simp only [ofWords] at h
      split at h
      · next hcheck => exact .bracket (hbracket name (by simp) hcheck)
      · cases h
    · simp only [ofWords] at h
      split at h
      · next hcheck => exact .bracket (hbracket name (by simp) hcheck)
      · cases h
    · exact .surplus (by simp)
  · intro hmalformed
    cases h : ofWords opening words with
    | error error => exact ⟨error, rfl⟩
    | ok segment =>
        obtain ⟨⟨_, hplain⟩, hshape⟩ := ofWords_eq_ok.mp h
        exfalso
        cases hmalformed with
        | empty => simp at hshape
        | surplus more =>
            rcases hshape with ⟨name, rfl, _⟩ | ⟨name, type, rfl, _⟩ <;> simp at more
        | @bracket name others here =>
            have hname : segment.name = name := by
              rcases hshape with ⟨_, hwords, rfl⟩ | ⟨_, _, hwords, rfl⟩ <;>
                exact (List.cons.inj hwords).1.symm
            have hbracket := (not_isPlainWord_iff (hwords name List.mem_cons_self).2).mpr here
            rw [hname, hbracket] at hplain
            cases hplain

/-! ## The types of a list -/

/-- Bare segments are the ones of one word. -/
theorem isBare_iff_length (segment : Segment) :
    segment.isBare = true ↔ segment.words.length = 1 := by
  cases segment <;> simp [isBare, words]

theorem all_isBare_iff {segments : List Segment} :
    segments.all (·.isBare) = true ↔ ∀ words ∈ segments.map (·.words), words.length ≠ 2 := by
  rw [List.all_eq_true, List.forall_mem_map]
  refine forall_congr' fun segment => forall_congr' fun _ => ?_
  cases segment <;> simp [isBare, words]

/-- No type is ahead where all segments are bare. -/
theorem typeAhead_eq_none {segments : List Segment} :
    typeAhead segments = none ↔ segments.all (·.isBare) = true := by
  induction segments with
  | nil => simp [typeAhead]
  | cons segment segments ih =>
      cases segment with
      | bare name => simpa [typeAhead, isBare] using ih
      | typed name type => simp [typeAhead, isBare]

/-- The type ahead is the second word of the first two that stand together. -/
theorem find?_of_typeAhead {segments : List Segment} {type : Token}
    (h : typeAhead segments = some type) :
    ∃ words, (segments.map (·.words)).find? (·.length == 2) = some words ∧ words[1]? = some type := by
  induction segments with
  | nil => cases h
  | cons segment segments ih =>
      cases segment with
      | bare name => exact ih h
      | typed name type' => exact ⟨[name, type'], rfl, h⟩

/-- Types are not found for all where the last segment has none: behind any other stands one that
has a type. -/
theorem shareTypes_fails_iff {segments : List Segment} :
    (∃ error, shareTypes segments = .error error) ↔
      ∃ last, segments.getLast? = some last ∧ last.isBare = true := by
  induction segments with
  | nil => simp [shareTypes]
  | cons segment segments ih =>
      by_cases hsegments : segments = []
      · subst hsegments
        cases segment <;> simp [shareTypes, typeAhead, isBare, Except.map]
      · have hlast : (segment :: segments).getLast? = segments.getLast? := by
          obtain ⟨next, later, rfl⟩ := List.exists_cons_of_ne_nil hsegments
          exact List.getLast?_cons_cons
        rw [hlast, ← ih]
        cases segment with
        | typed name type => simp only [shareTypes, except_map_eq_error]
        | bare name =>
            cases htype : typeAhead segments with
            | some type => simp only [shareTypes, htype, except_map_eq_error]
            | none =>
                -- The name fails at once; and no type ahead means that the last one is bare too.
                have hbare := List.all_eq_true.mp (typeAhead_eq_none.mp htype)
                have hfails := ih.mpr ⟨_, List.getLast?_eq_some_getLast hsegments,
                  hbare _ (List.getLast_mem hsegments)⟩
                simp only [shareTypes, htype]
                exact ⟨fun _ => hfails, fun _ => ⟨_, rfl⟩⟩

/-- Each argument has the type that is ahead of the segment at its place. -/
def TakesTypes (segments : List Segment) (arguments : List Argument) : Prop :=
  ∀ i argument, arguments[i]? = some argument →
    ∃ type, typeAhead (segments.drop i) = some type ∧ argument.type = some type.text

/-- One more argument takes the type that comes next. -/
theorem TakesTypes.cons {segment : Segment} {segments : List Segment} {argument : Argument}
    {arguments : List Argument} {type : Token} (h : TakesTypes segments arguments)
    (hahead : typeAhead (segment :: segments) = some type)
    (htype : argument.type = some type.text) :
    TakesTypes (segment :: segments) (argument :: arguments) := by
  intro i found hfound
  cases i with
  | zero =>
      obtain rfl := Option.some.inj hfound
      exact ⟨type, hahead, htype⟩
  | succ i => exact h i found hfound

/-- Where types are found, each argument has the name of its segment and the type ahead of it. -/
theorem of_shareTypes {segments : List Segment} {arguments : List Argument}
    (h : shareTypes segments = .ok arguments) :
    arguments.map (·.name) = segments.map (·.name.text) ∧ TakesTypes segments arguments := by
  induction segments generalizing arguments with
  | nil =>
      obtain rfl := Except.ok.inj h
      exact ⟨rfl, by simp [TakesTypes]⟩
  | cons segment segments ih =>
      cases segment with
      | typed name type =>
          obtain ⟨others, hothers, rfl⟩ := except_map_eq_ok.mp h
          obtain ⟨hnames, htypes⟩ := ih hothers
          exact ⟨by rw [List.map_cons, hnames]; rfl, htypes.cons rfl rfl⟩
      | bare name =>
          simp only [shareTypes] at h
          split at h
          · cases h
          · next type hahead =>
              obtain ⟨others, hothers, rfl⟩ := except_map_eq_ok.mp h
              obtain ⟨hnames, htypes⟩ := ih hothers
              exact ⟨by rw [List.map_cons, hnames]; rfl, htypes.cons hahead rfl⟩

end Segment

/-- A type is written in the list, and the last argument has none to take. -/
def LacksType (groups : List (List Token)) : Prop :=
  (∃ words ∈ groups, words.length = 2) ∧ ∃ last, groups.getLast? = some last ∧ last.length = 1

/-- The arguments have the first words as names.  They have no types where no second word stands;
else the type of each is the second word of the first two that stand together, from its own on. -/
structure SharesTypes (groups : List (List Token)) (arguments : List Argument) : Prop where
  names : arguments.map (fun argument => some argument.name) =
    groups.map fun words => words.head?.map (·.text)
  untyped : (∀ words ∈ groups, words.length ≠ 2) → ∀ argument ∈ arguments, argument.type = none
  typed : (∃ words ∈ groups, words.length = 2) → ∀ i argument, arguments[i]? = some argument →
    ∃ words type, (groups.drop i).find? (·.length == 2) = some words ∧ words[1]? = some type ∧
      argument.type = some type.text

section
variable {opening : Span} {groups : List (List Token)} {segments : List Segment}
  {arguments : List Argument}

/-- Types are lacking where some argument has one and another comes to none. -/
theorem lacksType_iff :
    LacksType (segments.map (·.words)) ↔
      ¬segments.all (·.isBare) = true ∧ ∃ error, Segment.shareTypes segments = .error error := by
  rw [Segment.all_isBare_iff, Segment.shareTypes_fails_iff, LacksType]
  refine and_congr ?_ ?_
  · simp only [ne_eq, Classical.not_forall, Classical.not_not, exists_prop]
  · simp only [List.getLast?_map, Option.map_eq_some_iff, Segment.isBare_iff_length]
    constructor
    · rintro ⟨_, ⟨last, hlast, rfl⟩, hlength⟩
      exact ⟨last, hlast, hlength⟩
    · rintro ⟨last, hlast, hlength⟩
      exact ⟨_, ⟨last, hlast, rfl⟩, hlength⟩

/-- Where no argument has a type all of them stay without. -/
theorem sharesTypes_of_bare (h : segments.all (·.isBare) = true) :
    SharesTypes (segments.map (·.words))
      (segments.map fun segment => ⟨segment.name.text, none, segment.name.span⟩) where
  names := by
    rw [List.map_map, List.map_map]
    refine List.map_congr_left fun segment _ => ?_
    cases segment <;> rfl
  untyped _ argument hargument := by
    obtain ⟨segment, _, rfl⟩ := List.mem_map.mp hargument
    rfl
  typed := by
    rintro ⟨words, hwords, hlength⟩
    exact absurd hlength (Segment.all_isBare_iff.mp h words hwords)

/-- Arguments that get their types from those behind them share types. -/
theorem sharesTypes_of_shareTypes (hbare : ¬segments.all (·.isBare) = true)
    (h : Segment.shareTypes segments = .ok arguments) :
    SharesTypes (segments.map (·.words)) arguments where
  names := by
    have hnames := congrArg (List.map some) (Segment.of_shareTypes h).1
    rw [List.map_map, List.map_map] at hnames
    rw [List.map_map]
    refine hnames.trans (List.map_congr_left fun segment _ => ?_)
    cases segment <;> rfl
  untyped huntyped := absurd (Segment.all_isBare_iff.mpr huntyped) hbare
  typed _ i argument hargument := by
    obtain ⟨type, hahead, htype⟩ := (Segment.of_shareTypes h).2 i argument hargument
    obtain ⟨words, hfind, hsecond⟩ := Segment.find?_of_typeAhead hahead
    exact ⟨words, type, by rw [← List.map_drop, hfind], hsecond, htype⟩

/-- Arguments are not found where some words are no argument or a type is lacking. -/
theorem resolveArguments_fails_iff (hfilled : groups ≠ [[]])
    (hwords : ∀ words ∈ groups, ∀ word ∈ words,
      word.text ≠ [] ∧ word.text.all isArgumentWord = true) :
    (∃ error, resolveArguments opening groups = .error error) ↔
      (∃ words ∈ dropTrailingComma groups, Segment.Malformed words) ∨
        LacksType (dropTrailingComma groups) := by
  have hmalformed :
      (∃ error, (dropTrailingComma groups).mapM (Segment.ofWords opening) = .error error) ↔
        ∃ words ∈ dropTrailingComma groups, Segment.Malformed words := by
    rw [mapM_fails_iff]
    refine exists_congr fun words => and_congr_right fun hmem => ?_
    exact Segment.ofWords_fails_iff (hwords words (dropTrailingComma_subset words hmem))
  rw [← hmalformed]
  cases h : (dropTrailingComma groups).mapM (Segment.ofWords opening) with
  | error error =>
      refine ⟨fun _ => .inl ⟨error, rfl⟩, fun _ => ⟨error, ?_⟩⟩
      rw [resolveArguments, if_neg hfilled, h]
      rfl
  | ok segments =>
      rw [resolveArguments_of_segments hfilled h, ← map_of_mapM_eq_ok Segment.words_of_ofWords h,
        lacksType_iff]
      split
      · next hbare => simp [hbare]
      · next hbare => simp [hbare]

/-- Where arguments are found they share their types. -/
theorem sharesTypes_of_resolveArguments (hfilled : groups ≠ [[]])
    (h : resolveArguments opening groups = .ok arguments) :
    SharesTypes (dropTrailingComma groups) arguments := by
  obtain ⟨hempty, _⟩ | ⟨_, segments, hsegments, harguments⟩ := resolveArguments_cases h
  · exact absurd hempty hfilled
  · rw [← map_of_mapM_eq_ok Segment.words_of_ofWords hsegments]
    obtain ⟨hbare, rfl⟩ | ⟨hbare, hshared⟩ := harguments
    · exact sharesTypes_of_bare hbare
    · exact sharesTypes_of_shareTypes hbare hshared

/-- Printed between parentheses, arguments that were found are read again. -/
theorem argumentList_of_resolveArguments
    (hwords : ∀ words ∈ groups, ∀ word ∈ words,
      word.text ≠ [] ∧ word.text.all isArgumentWord = true)
    (h : resolveArguments opening groups = .ok arguments) :
    ∃ found closing r, argumentList (.ofText (Argument.canonicalList arguments)) =
      .ok (found, closing) r ∧ found.map (·.bare) = arguments.map (·.bare) := by
  have hwritten : Argument.AllWritten arguments := by
    refine written_of_resolveArguments (fun words hmem word hword => ?_) h
    exact spells_of_isArgumentWord (hwords words hmem word hword)
  have hreads := argumentList_reads hwritten []
  rw [List.append_nil] at hreads
  obtain ⟨⟨found, closing⟩, r, hlist, hfound, _⟩ := (hreads _ (.ofText _)).exists_ok
  exact ⟨found, closing, r, hlist, hfound⟩

/-- What a list of words between commas stands for.  A single empty argument is none at all.  Else,
without an empty one behind the last comma, the list is a fault of the signature where words are no
argument or a type is lacking, and no other fault; where it is none, its arguments share the types
that are written, and are read again when they are printed. -/
theorem resolveArguments_typed
    (hwords : ∀ words ∈ groups, ∀ word ∈ words,
      word.text ≠ [] ∧ word.text.all isArgumentWord = true) :
    (groups = [[]] → resolveArguments opening groups = .ok []) ∧
      (groups ≠ [[]] →
        ((∃ fault span, resolveArguments opening groups = .error (.badSignature fault span)) ↔
          (∃ words ∈ dropTrailingComma groups, Segment.Malformed words) ∨
            LacksType (dropTrailingComma groups)) ∧
        ∀ arguments, resolveArguments opening groups = .ok arguments →
          SharesTypes (dropTrailingComma groups) arguments) ∧
      (∀ error, resolveArguments opening groups = .error error →
        ∃ fault span, error = .badSignature fault span) ∧
      ∀ arguments, resolveArguments opening groups = .ok arguments →
        ∃ found closing r, argumentList (.ofText (Argument.canonicalList arguments)) =
          .ok (found, closing) r ∧ found.map (·.bare) = arguments.map (·.bare) := by
  refine ⟨?_, fun hfilled => ⟨?_, fun arguments => sharesTypes_of_resolveArguments hfilled⟩,
    fun error => resolveArguments_eq_error, fun arguments => argumentList_of_resolveArguments hwords⟩
  · rintro rfl
    rfl
  · rw [← resolveArguments_fails_iff hfilled hwords]
    constructor
    · rintro ⟨fault, span, h⟩
      exact ⟨_, h⟩
    · rintro ⟨error, h⟩
      obtain ⟨fault, span, rfl⟩ := resolveArguments_eq_error h
      exact ⟨fault, span, h⟩

end

/-- The first name takes the type of the second, the third that of the fourth, and the comma at the
end adds nothing. -/
theorem resolveArguments_typed_shared :
    ∃ (groups : List (List Token)) (arguments : List Argument),
      groups.map (·.map fun word => String.ofList word.text) =
        [["a"], ["b", "int"], ["c"], ["d", "[]x"], []] ∧
      resolveArguments .nowhere groups = .ok arguments ∧
      arguments.map (·.type) =
        [some "int".toList, some "int".toList, some "[]x".toList, some "[]x".toList] ∧
      SharesTypes (dropTrailingComma groups) arguments ∧
      ∃ found closing r, argumentList (.ofText (Argument.canonicalList arguments)) =
        .ok (found, closing) r ∧ found.map (·.bare) = arguments.map (·.bare) := by
  let groups : List (List Token) :=
    [["a"], ["b", "int"], ["c"], ["d", "[]x"], []].map
      (·.map fun word => ⟨.ident, word.toList, .nowhere⟩)
  have hwords : ∀ words ∈ groups, ∀ word ∈ words,
      word.text ≠ [] ∧ word.text.all isArgumentWord = true := by decide
  obtain ⟨arguments, harguments, htypes⟩ := exists_ok_of_any
    (x := resolveArguments .nowhere groups)
    (p := fun arguments => arguments.map (·.type) ==
      [some "int".toList, some "int".toList, some "[]x".toList, some "[]x".toList])
    (by decide)
  obtain ⟨_, hfilled, _, hread⟩ := resolveArguments_typed hwords
  exact ⟨groups, arguments, by decide, harguments, beq_iff_eq.mp htypes,
    (hfilled (by decide)).2 arguments harguments, hread arguments harguments⟩

end Grammar

end DiagramText
