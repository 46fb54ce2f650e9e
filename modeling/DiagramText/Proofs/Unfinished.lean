import DiagramText.Proofs.Completion
import DiagramText.Proofs.Grammar.Opened

/-!
# The tree of a source that is malformed

What was completed of a malformed source is a tree in which blocks stay without
their closing braces.  They stand one in another, each in the last item of its
scope, and every other block is closed (`Spine`).

The tree is put together from the scopes in which the turns fail.  What stands in
them is closed and no more blocks are open than the limit allows
(`Scopes.Waiting`), so only the open ones are on the spine
(`Scopes.spine_unfinished`), wherever in a statement the turns fail.  How many
there are is known where the limit is exceeded, and which one is the innermost
where a closing brace is missing (`Session.Left`).
-/

namespace DiagramText

open Grammar Reader

variable {source : Text} {config : Config}

/-- The declaration is that of a block which the brace opens: a statement of the source ends with the
brace after the target and the label. -/
structure Declaration.OpenedBy (source : Text) (head : Declaration) (brace : Token) : Prop where
  read : Statement.ReadFrom source (.opening head.target head.label brace)
  opens : brace.ReadFrom source .label ∧ brace.isPunct '\x7b' = true
  hasColon : head.hasColon = true
  imported : head.imported = none
  span : head.span = head.target.span.cover brace.span

/-- The blocks without a closing brace stand one in another, each in the last item of its scope, and
have the spans of the braces that open them, the outermost first. -/
inductive Spine (source : Text) : (items : List Item) → (braces : List Token) → Prop
  | closed {items : List Item} (complete : Item.unclosedAll items = 0) : Spine source items []
  | opened {before children : List Item} {head : Declaration} {brace : Token} {braces : List Token}
      (complete : Item.unclosedAll before = 0) (opens : head.OpenedBy source brace)
      (inner : Spine source children braces) :
      Spine source (before ++ [.container head ⟨false, brace.span⟩ children]) (brace :: braces)

/-- No other block is without its closing brace.  The induction is on the spine. -/
theorem Spine.unclosedAll_eq {items : List Item} {braces : List Token} (h : Spine source items braces) :
    Item.unclosedAll items = braces.length := by
  induction h with
  | closed complete => exact complete
  | opened complete _ _ ih =>
      rw [Item.unclosedAll_append, complete]
      simp only [Item.unclosedAll, Item.unclosed, ih, List.length_cons]
      simp only [Bool.false_eq_true, if_false]
      omega

namespace Grammar

theorem OpenBlock.Opened.openedBy {block : OpenBlock} (h : block.Opened source) :
    Declaration.OpenedBy source ⟨block.target, true, block.label, none,
      block.target.span.cover block.brace.span⟩ block.brace :=
  ⟨h, h.brace, rfl, rfl, rfl⟩

/-- A spine below complete items goes on below an open block around it.  The induction is on the open
blocks, the innermost first. -/
theorem OpenBlock.spine_foldl {blocks : List OpenBlock} {inner : List Item} {braces : List Token}
    (hcomplete : ∀ block ∈ blocks, Item.unclosedAll block.children = 0)
    (hopened : ∀ block ∈ blocks, block.Opened source)
    (hinner : ∀ before, Item.unclosedAll before = 0 → Spine source (before ++ inner) braces) :
    ∀ before, Item.unclosedAll before = 0 →
      Spine source
        (before ++ blocks.foldl (fun inner block => [block.item ⟨false, block.brace.span⟩ inner]) inner)
        ((blocks.map (·.brace)).reverse ++ braces) := by
  induction blocks generalizing inner braces with
  | nil => exact hinner
  | cons block outer ih =>
      obtain ⟨hblock, houter⟩ := List.forall_mem_cons.mp hcomplete
      obtain ⟨hblockOpened, houterOpened⟩ := List.forall_mem_cons.mp hopened
      have haround : ∀ before, Item.unclosedAll before = 0 → Spine source
          (before ++ [block.item ⟨false, block.brace.span⟩ inner]) (block.brace :: braces) :=
        fun before hbefore => .opened hbefore hblockOpened.openedBy (hinner _ hblock)
      intro before hbefore
      rw [List.foldl_cons, List.map_cons, List.reverse_cons, List.append_assoc]
      exact ih houter houterOpened haround before hbefore

namespace Scopes

variable {scopes : Scopes}

/-- The open blocks are the spine of the tree that the scopes make when they stay unfinished. -/
theorem spine_unfinished (hcomplete : scopes.Complete)
    (hopened : ∀ block ∈ scopes.blocks, block.Opened source) :
    Spine source scopes.unfinished (scopes.blocks.map (·.brace)).reverse := by
  have hnone : ∀ before, Item.unclosedAll before = 0 → Spine source (before ++ []) [] := by
    intro before hbefore
    rw [List.append_nil]
    exact .closed hbefore
  have hspine := OpenBlock.spine_foldl hcomplete.blocks hopened hnone scopes.top hcomplete.top
  rwa [List.append_nil] at hspine

/-- What stands in the scopes is closed, and no more blocks are open than the limit allows. -/
structure Waiting (config : Config) (scopes : Scopes) : Prop where
  complete : scopes.Complete
  few : (scopes.blocks.length : Int) ≤ max config.maxDepth 0

/-- Closing a block leaves one less open. -/
theorem length_blocks_pop (scopes : Scopes) (closing : Span) :
    (scopes.pop closing).blocks.length = scopes.blocks.length - 1 := by
  obtain ⟨top, _ | ⟨block, outer⟩⟩ := scopes
  · rfl
  · exact length_blocks_add ⟨top, outer⟩ _

/-- A block is opened only where the limit allows one more. -/
theorem invariant_waiting (config : Config) : Invariant config (Waiting config) where
  comments scopes comments hcomments h := by
    refine ⟨(invariant_complete config).comments _ _ hcomments h.complete, ?_⟩
    rw [length_blocks_add]
    exact h.few
  item scopes item hleaf hitem h := by
    refine ⟨(invariant_complete config).item _ _ hleaf hitem h.complete, ?_⟩
    rw [length_blocks_add]
    exact h.few
  opening scopes target label brace _ _ hdeep h := by
    refine ⟨h.complete.push rfl, ?_⟩
    simp only [push, List.length_cons]
    omega
  close scopes closing h := by
    have hfew := h.few
    refine ⟨h.complete.pop closing, ?_⟩
    rw [length_blocks_pop]
    omega

end Scopes

/-- What is left of the session in which the turns fail: blocks that wait, the innermost of them the
one that is not closed, and as many as the limit allows if there is one too many. -/
structure Session.Left (source : Text) (config : Config) (fault : Fault) (S : Session) : Prop where
  opened : ∀ block ∈ S.scopes.blocks, block.Opened source
  waiting : S.scopes.Waiting config
  innermost : ∀ brace, fault = .malformed (.unclosedBlock brace) →
    (S.scopes.blocks.head?.map (·.brace.span)) = some brace
  full : ∀ limit brace, fault = .malformed (.tooDeep limit brace) →
    (S.scopes.blocks.length : Int) = max config.maxDepth 0

variable {S T : Session} {token : Token} {fault : Fault} {r : Reader}

/-- A fault inside a statement says nothing about the blocks around it. -/
theorem Session.Left.of_local {scopes : Scopes}
    (hopened : ∀ block ∈ scopes.blocks, block.Opened source) (hwaiting : scopes.Waiting config)
    (hlocal : Local fault r) : Left source config fault ⟨r, scopes⟩ where
  opened := hopened
  waiting := hwaiting
  innermost brace h := absurd h (hlocal.2.1 brace)
  full limit brace h := absurd h (hlocal.2.2 limit brace)

/-- Each way to fail leaves the open blocks as they were, except that one may have been closed. -/
theorem left_of_breaks (hS : Settled S token) (hstanding : S.Standing source)
    (hwaiting : S.scopes.Waiting config) (h : Breaks config token S fault T) :
    Session.Left source config fault T := by
  cases h with
  | @unclosed block outer eof blocks =>
      refine ⟨hstanding.opened, hwaiting, ?_, by simp⟩
      intro brace hbrace
      rw [blocks]
      simpa using hbrace
  | stray => exact ⟨hstanding.opened, hwaiting, by simp, by simp⟩
  | close brace blocks failed =>
      have hsound := (hS.shows.passes hS.sound (Token.kind_ne_eof_of_isPunct brace)).sound
      exact .of_local (Scopes.opened_pop hstanding.opened _)
        ((Scopes.invariant_waiting config).close _ _ hwaiting) ((finishBlock_spec hsound).error failed)
  | statement failed =>
      exact .of_local hstanding.opened hwaiting ((statement_spec hS.sound).error failed)
  | tooDeep read deep =>
      refine ⟨hstanding.opened, hwaiting, by simp, ?_⟩
      intro limit brace _
      have hfew := hwaiting.few
      simp only at deep ⊢
      omega

/-- Where the turns fail, they leave blocks that wait. -/
theorem turns_left (source : Text) (config : Config) :
    Ends (turns config) ⟨.ofText source, .empty⟩ (fun _ _ => True) (Session.Left source config) := by
  have hI := Scopes.invariant_waiting config
  apply turns_breaks (P := fun S => S.Standing source ∧ S.scopes.Waiting config)
  · intro S token r hsound hpeek hS
    obtain ⟨hstanding, hwaiting⟩ := hS
    refine ⟨hstanding.settled hpeek, hI.comments _ _ ?_ hwaiting⟩
    exact ((peek_spec hsound .declaration).ok hpeek).sound.comments
  · intro S token again T hsettled hacts hS
    obtain ⟨hstanding, hwaiting⟩ := hS
    exact ⟨hstanding.acts hsettled hacts, hI.acts hsettled hacts hwaiting⟩
  · intro S fault r hsound hS hpeek
    obtain ⟨hstanding, hwaiting⟩ := hS
    exact .of_local hstanding.opened hwaiting ((peek_spec hsound .declaration).error hpeek).1
  · intro S token fault T hsettled hS hbreaks
    obtain ⟨hstanding, hwaiting⟩ := hS
    exact left_of_breaks hsettled hstanding hwaiting hbreaks
  · exact sound_ofText source
  · refine ⟨.ofText source, ⟨rfl, by simp [Scopes.empty]⟩, ?_⟩
    simp only [Scopes.empty, List.length_nil]
    omega

end Grammar

namespace Document

/-- The shape of what was completed of a malformed source: the blocks without a closing brace stand
one in another, each in the last item of its scope, and have the spans of the braces that open them.
Where a closing brace is missing the error has the span of the innermost of these braces, and where
blocks stand too deep there are as many as the limit allows. -/
theorem ofText_spine {error : SyntaxError} {completed : Document}
    (h : ofText config source = .error (.malformed error completed)) :
    ∃ braces, Spine source completed.children braces ∧
      (∀ brace, error = .unclosedBlock brace → braces.getLast?.map (·.span) = some brace) ∧
      (∀ limit brace, error = .tooDeep limit brace →
        (completed.unclosed : Int) = max config.maxDepth 0) := by
  obtain ⟨T, hturns, rfl⟩ := exists_failed h
  have hleft := (turns_left source config).error hturns
  -- The comments ahead are placed in the innermost scope before the tree is put together.
  have hcomplete := hleft.waiting.complete.add (unclosed_commentItems config T.reader.comments)
  have hopened := Scopes.opened_add hleft.opened (commentItems config T.reader.comments)
  have hspine := Scopes.spine_unfinished hcomplete hopened
  rw [Scopes.braces_add] at hspine
  refine ⟨_, hspine, ?_, ?_⟩
  · intro brace hbrace
    have hinnermost := hleft.innermost brace (congrArg _ hbrace)
    rw [List.getLast?_reverse, List.head?_map, Option.map_map]
    exact hinnermost
  · intro limit brace hbrace
    have hcount : (ofSession config source T).unclosed = _ := hspine.unclosedAll_eq
    rw [hcount, List.length_reverse, List.length_map]
    exact hleft.full limit brace (congrArg _ hbrace)

/-- A block that was closed, and a block with a comment in which no further one may stand. -/
theorem ofText_spine_full :
    ∃ completed braces,
      ofText ⟨1, true⟩ "a: \x7b\x7d; b: \x7bc: 1 #d\ne: \x7b".toList =
          .error (.malformed (.tooDeep 1 ⟨22, 23, 2, 4⟩) completed) ∧
        Spine "a: \x7b\x7d; b: \x7bc: 1 #d\ne: \x7b".toList completed.children braces ∧
        (completed.unclosed : Int) = max 1 0 := by
  obtain ⟨error, completed, hfailed, hdeep⟩ := exists_failed_of_any
    (p := fun found => found.1 = .tooDeep 1 ⟨22, 23, 2, 4⟩)
    (x := ofText ⟨1, true⟩ "a: \x7b\x7d; b: \x7bc: 1 #d\ne: \x7b".toList) (by decide +kernel)
  obtain rfl : error = .tooDeep 1 ⟨22, 23, 2, 4⟩ := of_decide_eq_true hdeep
  obtain ⟨braces, hspine, _, hfull⟩ := ofText_spine hfailed
  exact ⟨completed, braces, hfailed, hspine, hfull 1 _ rfl⟩

end Document

end DiagramText
