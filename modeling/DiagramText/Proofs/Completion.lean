import DiagramText.Proofs.Grammar.Steps

/-!
# Completing a source

When a source ends inside blocks, the tree of what was completed holds these
blocks without their closing braces.  Adding a line break and as many closing
braces as there are open blocks makes a source that is read, and what it gives
is that tree with all blocks closed (`Document.ofText_completed`).

The tree of an unfinished source is put together by folding the open blocks,
that of the completed one by closing them one after the other.  The blocks that
stand in the scopes already are closed (`Scopes.Complete`), so that only the
open ones make a difference (`closedBare_unfinished_pop`).
-/

namespace DiagramText

open Grammar Reader

mutual

/-- How many blocks without a closing brace there are from the item down. -/
def Item.unclosed : Item → Nat
  | .container _ mark children => (if mark.closed then 0 else 1) + Item.unclosedAll children
  | _ => 0

/-- How many blocks without a closing brace there are from the items down. -/
def Item.unclosedAll : List Item → Nat
  | [] => 0
  | item :: others => item.unclosed + Item.unclosedAll others

end

mutual

/-- The item with all its blocks closed. -/
def Item.close : Item → Item
  | .container head mark children =>
    .container head { mark with closed := true } (Item.closeAll children)
  | item => item

/-- The items with all their blocks closed. -/
def Item.closeAll : List Item → List Item
  | [] => []
  | item :: others => item.close :: Item.closeAll others

end

/-- How many blocks of the document have no closing brace. -/
def Document.unclosed (document : Document) : Nat :=
  Item.unclosedAll document.children

/-- The document with all its blocks closed. -/
def Document.close (document : Document) : Document :=
  { document with children := Item.closeAll document.children }

namespace Item

/-- The open blocks of items one after the other are those of both. -/
@[simp] theorem unclosedAll_append (items others : List Item) :
    unclosedAll (items ++ others) = unclosedAll items + unclosedAll others := by
  induction items with
  | nil => simp [unclosedAll]
  | cons item items ih => simp [unclosedAll, ih, Nat.add_assoc]

/-- Items are complete if each of them is. -/
theorem unclosedAll_eq_zero_iff {items : List Item} :
    unclosedAll items = 0 ↔ ∀ item ∈ items, item.unclosed = 0 := by
  induction items with
  | nil => simp [unclosedAll]
  | cons item items ih => simp [unclosedAll, ih]

/-- Closing items closes each of them. -/
theorem closeAll_eq_map (items : List Item) : closeAll items = items.map close := by
  induction items with
  | nil => rfl
  | cons item items ih => rw [closeAll, ih, List.map_cons]

mutual

/-- An item without open blocks is closed already. -/
theorem close_of_unclosed : (item : Item) → item.unclosed = 0 → item.close = item
  | .container head mark children, h => by
    obtain ⟨closed, span⟩ := mark
    simp only [unclosed, Nat.add_eq_zero_iff] at h
    have hclosed : closed = true := by simpa using h.1
    rw [close, closeAll_of_unclosed children h.2, hclosed]
  | .comment .., _ => rfl
  | .blockComment .., _ => rfl
  | .importing _, _ => rfl
  | .method _, _ => rfl
  | .declaration _, _ => rfl

/-- Items that are complete stay as they are when they are closed. -/
theorem closeAll_of_unclosed : (items : List Item) → unclosedAll items = 0 → closeAll items = items
  | [], _ => rfl
  | item :: others, h => by
    simp only [unclosedAll, Nat.add_eq_zero_iff] at h
    rw [closeAll, close_of_unclosed item h.1, closeAll_of_unclosed others h.2]

end

/-- An item that was read has all its closing braces. -/
theorem Written.unclosed {maxDepth : Int} {depth : Nat} {item : Item}
    (h : item.Written maxDepth depth) : item.unclosed = 0 := by
  induction h with
  | comment =>
      unfold commentItem
      split <;> rfl
  | importing => rfl
  | method => rfl
  | declaration => rfl
  | container _ _ _ closed _ _ ih =>
      rw [Item.unclosed, closed, if_pos rfl, Nat.zero_add]
      exact unclosedAll_eq_zero_iff.mpr ih

/-- A comment is complete. -/
theorem unclosed_commentItem (token : Token) : (commentItem token).unclosed = 0 := by
  unfold commentItem
  split <;> rfl

end Item

namespace Grammar

namespace Scopes

/-- All blocks that stand in the scopes are closed. -/
structure Complete (scopes : Scopes) : Prop where
  top : Item.unclosedAll scopes.top = 0
  blocks : ∀ block ∈ scopes.blocks, Item.unclosedAll block.children = 0

variable {scopes : Scopes}

/-- Adding complete items leaves scopes complete. -/
theorem Complete.add (h : scopes.Complete) {items : List Item} (hitems : Item.unclosedAll items = 0) :
    (scopes.add items).Complete := by
  obtain ⟨top, blocks⟩ := scopes
  obtain ⟨htop, hblocks⟩ := h
  cases blocks with
  | nil => exact ⟨by simpa [Scopes.add, hitems] using htop, hblocks⟩
  | cons block outer =>
      rw [List.forall_mem_cons] at hblocks
      refine ⟨htop, List.forall_mem_cons.mpr ⟨?_, hblocks.2⟩⟩
      rw [Item.unclosedAll_append, hblocks.1, hitems]

/-- Opening a block leaves scopes complete. -/
theorem Complete.push (h : scopes.Complete) {block : OpenBlock}
    (hblock : Item.unclosedAll block.children = 0) : (scopes.push block).Complete :=
  ⟨h.top, List.forall_mem_cons.mpr ⟨hblock, h.blocks⟩⟩

/-- Closing a block leaves scopes complete. -/
theorem Complete.pop (h : scopes.Complete) (closing : Span) : (scopes.pop closing).Complete := by
  obtain ⟨top, blocks⟩ := scopes
  obtain ⟨htop, hblocks⟩ := h
  cases blocks with
  | nil => exact ⟨htop, hblocks⟩
  | cons block outer =>
      rw [List.forall_mem_cons] at hblocks
      have houter : Complete ⟨top, outer⟩ := ⟨htop, hblocks.2⟩
      refine houter.add ?_
      simp [Item.unclosedAll, OpenBlock.item, Item.unclosed, hblocks.1]

/-- The items without spans, all blocks closed. -/
def closedBare (items : List Item) : List Item :=
  items.map fun item => item.close.bare

theorem closedBare_eq (items : List Item) : closedBare items = Item.bareAll (Item.closeAll items) := by
  rw [Item.closeAll_eq_map, Item.bareAll_eq_map, List.map_map]
  rfl

/-- Items one after the other are closed each for itself. -/
theorem closedBare_append (items others : List Item) :
    closedBare (items ++ others) = closedBare items ++ closedBare others :=
  List.map_append

/-- Once it is closed a block depends on what it holds, not on its mark. -/
theorem closedBare_item (block : OpenBlock) (mark mark' : BlockMark) {items others : List Item}
    (h : closedBare items = closedBare others) :
    closedBare [block.item mark items] = closedBare [block.item mark' others] := by
  have hchildren := (closedBare_append block.children items).trans
    ((congrArg _ h).trans (closedBare_append block.children others).symm)
  simp only [closedBare, List.map_cons, List.map_nil, OpenBlock.item, Item.close, Item.bare,
    BlockMark.bare, Item.closeAll_eq_map, Item.bareAll_eq_map, List.map_map, Function.comp_def]
    at hchildren ⊢
  rw [hchildren]
  rfl

/-- Once they are closed the open blocks depend on what the innermost one holds. -/
theorem closedBare_foldl (blocks : List OpenBlock) {items others : List Item}
    (h : closedBare items = closedBare others) :
    closedBare (blocks.foldl (fun inner block => [block.item ⟨false, block.brace.span⟩ inner]) items) =
      closedBare
        (blocks.foldl (fun inner block => [block.item ⟨false, block.brace.span⟩ inner]) others) := by
  induction blocks generalizing items others with
  | nil => exact h
  | cons block blocks ih => exact ih (closedBare_item block _ _ h)

/-- Closing the innermost block leaves the same tree, once all blocks are closed. -/
theorem closedBare_unfinished_pop (scopes : Scopes) (closing : Span) :
    closedBare (scopes.pop closing).unfinished = closedBare scopes.unfinished := by
  obtain ⟨top, blocks⟩ := scopes
  cases blocks with
  | nil => rfl
  | cons block outer =>
      simp only [unfinished, List.foldl_cons, pop]
      have hclosed : closedBare [block.item ⟨true, block.brace.span.cover closing⟩ []] =
          closedBare [block.item ⟨false, block.brace.span⟩ []] := closedBare_item block _ _ rfl
      cases outer with
      | nil =>
          simp only [Scopes.add, List.foldl_nil, List.append_nil]
          rw [closedBare_append, closedBare_append, hclosed]
      | cons next outer =>
          simp only [Scopes.add, List.foldl_cons]
          rw [closedBare_append, closedBare_append]
          refine congrArg _ (closedBare_foldl outer ?_)
          have hinner := closedBare_item next ⟨false, next.brace.span⟩ ⟨false, next.brace.span⟩ hclosed
          rw [← hinner]
          simp [OpenBlock.item]

/-- As many blocks are open in the tree of unfinished scopes as stand on the stack. -/
theorem Complete.unclosed_unfinished (h : scopes.Complete) :
    Item.unclosedAll scopes.unfinished = scopes.blocks.length := by
  obtain ⟨top, blocks⟩ := scopes
  obtain ⟨htop, hblocks⟩ := h
  have hfold : ∀ (blocks : List OpenBlock) (items : List Item),
      (∀ block ∈ blocks, Item.unclosedAll block.children = 0) →
      Item.unclosedAll (blocks.foldl
        (fun inner block => [block.item ⟨false, block.brace.span⟩ inner]) items) =
        Item.unclosedAll items + blocks.length := by
    intro blocks
    induction blocks with
    | nil =>
        intro items _
        rfl
    | cons block blocks ih =>
        intro items hall
        rw [List.forall_mem_cons] at hall
        rw [List.foldl_cons, ih _ hall.2]
        simp only [Item.unclosedAll, OpenBlock.item, Item.unclosed, Item.unclosedAll_append, hall.1,
          List.length_cons]
        simp
        omega
  have hcount := hfold blocks [] hblocks
  simp only [Item.unclosedAll, Nat.zero_add] at hcount
  simp only [unfinished, Item.unclosedAll_append]
  rw [hcount, htop, Nat.zero_add]

end Scopes

variable {config : Config} {S T : Session} {token : Token}

/-- Comments that are placed are complete. -/
theorem unclosed_commentItems (config : Config) (comments : List Token) :
    Item.unclosedAll (commentItems config comments) = 0 := by
  refine Item.unclosedAll_eq_zero_iff.mpr fun item hitem => ?_
  obtain ⟨comment, _, rfl⟩ := mem_commentItems hitem
  exact Item.unclosed_commentItem comment

/-- What a turn puts into the scopes is closed. -/
theorem Scopes.invariant_complete (config : Config) : Invariant config Complete where
  comments scopes comments _ h := h.add (unclosed_commentItems config comments)
  item scopes item _ hitem h := by
    apply h.add
    simpa [Item.unclosedAll] using (hitem 0 0).unclosed
  opening scopes target label brace _ _ _ h := h.push rfl
  close scopes closing h := h.pop closing

/-! ## Closing braces -/

/-- As many closing braces. -/
def braces (count : Nat) : Text :=
  List.replicate count '\x7d'

/-- Both modes of the line find a closing brace. -/
theorem opens_brace (t : Text) : Opens ('\x7d' :: t) :=
  ⟨⟨_, _, _, _, Mode.finds_brace (.inl rfl) t⟩, ⟨_, _, _, _, Mode.finds_brace (.inr rfl) t⟩⟩

/-- After a closing brace nothing is consumed before the next one or the end. -/
theorem finishBlock_braces {r : Reader} (hr : r.Sound) {count : Nat} (htext : r.text = braces count) :
    ∃ r', finishBlock r = .ok () r' ∧ r'.Sound ∧ r'.text = braces count ∧
      r'.remarks = r.remarks := by
  have hfinds : ∃ lexeme, lexeme.kind ≠ .terminator ∧
      Mode.declaration.Finds r.text [] false lexeme r.text := by
    rw [htext]
    cases count with
    | zero => exact ⟨⟨.eof, 0⟩, by decide, Mode.finds_nil⟩
    | succ count => exact ⟨⟨.punct, 1⟩, by decide, Mode.finds_brace (.inl rfl) _⟩
  obtain ⟨lexeme, hkind, hfinds⟩ := hfinds
  obtain ⟨token, r', hpeek, hsees⟩ := peek_of_finds hr hfinds
  obtain ⟨hsame, _, htext', hremarks, _⟩ := hsees.of_finds hfinds
  refine ⟨r', ?_, hsees.sound, htext'.trans htext, hremarks.trans (List.append_nil _)⟩
  unfold finishBlock
  rw [bind_ok hpeek, if_neg (by rwa [hsame])]
  rfl

/-- A closing brace that is found closes the innermost block. -/
theorem turn_brace (config : Config) {r₀ : Reader} {count : Nat} (hr : r₀.Sound)
    (hnothing : r₀.remarks = [])
    (hfinds : Mode.declaration.Finds r₀.text [] false ⟨.punct, 1⟩ (braces (count + 1)))
    {scopes : Scopes} (hblocks : scopes.blocks ≠ []) :
    ∃ (r : Reader) (closing : Span), r.Sound ∧ r.text = braces count ∧ r.remarks = [] ∧
      turn config ⟨r₀, scopes⟩ = .ok true ⟨r, scopes.pop closing⟩ := by
  obtain ⟨token, r, hpeek, hsees⟩ := peek_of_finds hr hfinds
  obtain ⟨hkind, hcut, htext, hremarks, _⟩ := hsees.of_finds hfinds
  have hbrace : token.isPunct '\x7d' = true := by
    simp [Token.isPunct, Token.isPunctOf, hkind, hcut, braces]
  have hcomments : r.comments = [] := by
    rw [hnothing, List.append_nil] at hremarks
    exact List.map_eq_nil_iff.mp hremarks
  have hsettled : Settled (settled config r scopes) token := settled_of_sees hsees
  have hsame : settled config r scopes = ⟨r, scopes⟩ := by
    rw [settled, hcomments, commentItems_nil, Scopes.add_nil, emptied_eq hcomments]
  rw [hsame] at hsettled
  have hafter : r.consumed.text = braces count := by
    have := htext.symm.trans (hsees.shows.text_eq_cons hsees.sound hbrace)
    exact (List.cons.inj this).2.symm
  obtain ⟨r', hfinish, hsound, hrest, hnone⟩ := finishBlock_braces hsees.sound.consumed hafter
  have hadvance := hsettled.shows.advance_eq (Token.kind_ne_eof_of_isPunct hbrace)
  have hclose : closeBlock ⟨r, scopes⟩ = _ :=
    (closeBlock_of_advance hadvance).trans (parsing_ok hfinish)
  refine ⟨r', token.span, hsound, hrest, ?_, ?_⟩
  · rw [hnone, remarks_consumed, remarks, hcomments, List.map_nil]
  · rw [turn_of_peek hpeek, hsame, act_brace hbrace]
    cases hscopes : scopes.blocks with
    | nil => exact absurd hscopes hblocks
    | cons block outer => exact bind_ok hclose

/-- Popping an open block leaves one less. -/
theorem Scopes.length_pop {scopes : Scopes} {count : Nat} (h : scopes.blocks.length = count + 1)
    (closing : Span) : (scopes.pop closing).blocks.length = count := by
  obtain ⟨top, _ | ⟨block, _ | ⟨next, outer⟩⟩⟩ := scopes
  · cases h
  · exact Nat.succ.inj h
  · exact Nat.succ.inj h

/-- Outside of all blocks nothing is left to do at the end of the source. -/
theorem outcome_nil (config : Config) {scopes : Scopes} (hblocks : scopes.blocks = []) :
    outcome config ⟨.ofText [], scopes⟩ = some scopes.bare := by
  obtain ⟨token, r, hpeek, hsees⟩ := peek_of_finds (sound_ofText []) Mode.finds_nil
  obtain ⟨hkind, _, _, hremarks, _⟩ := hsees.of_finds Mode.finds_nil
  have hcomments : r.comments = [] := by simpa [remarks, ofText] using hremarks
  have hscopes : (settled config r scopes).scopes = scopes := by
    rw [settled, hcomments, commentItems_nil, Scopes.add_nil]
  have hturn : turn config ⟨.ofText [], scopes⟩ = _ := turn_of_eof hpeek hkind
  simp only [hscopes, hblocks] at hturn
  rw [outcome_of_false hturn, hscopes]

/-- As many closing braces as there are open blocks close all of them.  The induction is on the
braces: each closes the innermost block. -/
theorem outcome_braces (count : Nat) (scopes : Scopes) (hblocks : scopes.blocks.length = count)
    (hcomplete : scopes.Complete) :
    outcome config ⟨.ofText (braces count), scopes⟩ =
      some ⟨Scopes.closedBare scopes.unfinished, []⟩ := by
  induction count generalizing scopes with
  | zero =>
      have hnone := List.length_eq_zero_iff.mp hblocks
      have hend := outcome_nil config hnone
      obtain ⟨top, blocks⟩ := scopes
      obtain rfl := hnone
      refine hend.trans ?_
      rw [Scopes.closedBare_eq, Scopes.unfinished, List.foldl_nil, List.append_nil,
        Item.closeAll_of_unclosed top hcomplete.top, Item.bareAll_eq_map]
      rfl
  | succ count ih =>
      have hopen : scopes.blocks ≠ [] := by
        intro hnil
        rw [hnil] at hblocks
        cases hblocks
      have hfront := sound_ofText (braces (count + 1))
      obtain ⟨r, closing, hsound, htext, hremarks, hturn⟩ :=
        turn_brace config hfront rfl (Mode.finds_brace (.inl rfl) (braces count)) hopen
      have hhere : outcome config ⟨r, scopes.pop closing⟩ =
          outcome config ⟨.ofText (braces count), scopes.pop closing⟩ :=
        outcome_here hsound htext (by simp [hremarks])
      rw [outcome_of_true hfront hturn, hhere,
        ih _ (Scopes.length_pop hblocks closing) (hcomplete.pop closing),
        Scopes.closedBare_unfinished_pop]

end Grammar

namespace Document

variable {config : Config}

/-- What is left of a source that ends inside blocks: scopes with as many open blocks as the tree of
what was completed has, and that tree once they are closed. -/
theorem comes_of_unclosedBlock {source : Text} {brace : Span} {completed : Document}
    (h : ofText config source = .error (.malformed (.unclosedBlock brace) completed)) :
    ∃ T, Comes config ⟨.ofText source, .empty⟩ T ∧ T.scopes.blocks ≠ [] ∧
      T.scopes.blocks.length = completed.unclosed ∧ T.scopes.Complete ∧
      completed.children = T.scopes.unfinished := by
  obtain ⟨T, hturns, rfl⟩ := exists_failed h
  obtain ⟨hcomes, hblocks⟩ := (turns_comes (sound_ofText source)).error hturns brace rfl
  have hcomplete : T.scopes.Complete :=
    (Scopes.invariant_complete config).comes hcomes ⟨rfl, by simp [Scopes.empty]⟩
  have hchildren : (ofSession config source T).children = T.scopes.unfinished := by
    rw [ofSession, hcomes.comments, commentItems_nil, Scopes.add_nil]
    rfl
  refine ⟨T, hcomes, hblocks, ?_, hcomplete, hchildren⟩
  rw [Document.unclosed, hchildren, hcomplete.unclosed_unfinished]

/-- A source that ends inside blocks leaves a tree with open blocks.  Followed by a line break and as
many closing braces as there are of them it is read, and gives the tree with its blocks closed. -/
theorem ofText_completed {source : Text} {brace : Span} {completed : Document}
    (h : ofText config source = .error (.malformed (.unclosedBlock brace) completed)) :
    1 ≤ completed.unclosed ∧
      ∃ document, ofText config (source ++ '\n' :: List.replicate completed.unclosed '\x7d') =
        .ok document ∧ document.bare = completed.close.bare := by
  obtain ⟨T, hcomes, hblocks, hcount, hcomplete, hchildren⟩ := comes_of_unclosedBlock h
  have hpos : 1 ≤ completed.unclosed := by
    rw [← hcount]
    exact List.length_pos_iff.mpr hblocks
  refine ⟨hpos, ?_⟩
  obtain ⟨count, hsucc⟩ : ∃ count, completed.unclosed = count + 1 := ⟨_, (Nat.sub_add_cancel hpos).symm⟩
  have hopens : Opens (braces completed.unclosed) := by
    rw [hsucc]
    exact opens_brace _
  have houtcome : outcome config ⟨.ofText (source ++ '\n' :: braces completed.unclosed), .empty⟩ = _ :=
    outcome_continued hcomes (lands_ofText source _) rfl (.inl hopens)
  rw [outcome_braces _ _ hcount hcomplete] at houtcome
  have hread := outcome_ofText config (source ++ '\n' :: braces completed.unclosed)
  rw [houtcome] at hread
  obtain ⟨document, hdocument, hbare⟩ := Option.map_eq_some_iff.mp hread.symm
  refine ⟨document, ?_, ?_⟩
  · exact except_toOption_eq_some.mp hdocument
  · rw [Document.bare, Document.bare, Document.close, hbare, Scopes.closedBare_eq, hchildren]

/-- The brace of the block that is left open and what was completed of the document, where a source
ends inside a block. -/
def unclosed? : Except Failure Document → Option (Span × Document)
  | .error (.malformed (.unclosedBlock brace) completed) => some (brace, completed)
  | _ => none

theorem error_of_unclosed? {result : Except Failure Document} {brace : Span} {completed : Document}
    (h : unclosed? result = some (brace, completed)) :
    result = .error (.malformed (.unclosedBlock brace) completed) := by
  unfold unclosed? at h
  split at h
  · cases h
    rfl
  · cases h

/-- Two blocks are open, and a number and a comment stand at the end of the source. -/
theorem ofText_completed_nested :
    ∃ brace completed document,
      ofText .default "a: \x7bb: \x7bc: 1 #d".toList = .error (.malformed (.unclosedBlock brace) completed) ∧
      ofText .default ("a: \x7bb: \x7bc: 1 #d".toList ++ '\n' ::
        List.replicate completed.unclosed '\x7d') = .ok document ∧
      document.bare = completed.close.bare := by
  have hopen : (unclosed? (ofText .default "a: \x7bb: \x7bc: 1 #d".toList)).isSome = true := by
    decide +kernel
  obtain ⟨⟨brace, completed⟩, hfound⟩ := Option.isSome_iff_exists.mp hopen
  have hunclosed := error_of_unclosed? hfound
  obtain ⟨_, document, hread, hbare⟩ := ofText_completed hunclosed
  exact ⟨brace, completed, document, hunclosed, hread, hbare⟩

end Document

end DiagramText
