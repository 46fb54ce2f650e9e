import DiagramText.Proofs.Grammar.Building
import DiagramText.Proofs.Grammar.Steps
import DiagramText.Proofs.Grammar.Threads

/-!
# Spans are faithful

The span of every node of a tree that was read says where in the source the node
stands (`Document.ofText_faithful`).  What a statement hands over is sourced, and
comments are cut from the source where they stand.

The invariant of the turns is about rows (`Session.Laid`).  The items of the
innermost scope that are no comments stand in a row between its brace and the
place of the reader.  Those of each scope around it stand before the target of
its open block, which stands with its label in a row before the brace.  A closing
brace makes of these rows the rows of a block and of its declaration.
-/

namespace DiagramText

open Grammar Reader

namespace Item

/-- The spans of the items that are no comments. -/
def solidSpans (items : List Item) : List Span :=
  (items.filter (!·.isComment)).map fun item => (Node.item item).span

@[simp] theorem solidSpans_append (items others : List Item) :
    solidSpans (items ++ others) = solidSpans items ++ solidSpans others := by
  simp [solidSpans]

theorem solidSpans_commentItems (config : Config) (comments : List Token) :
    solidSpans (commentItems config comments) = [] := by
  unfold commentItems
  split
  · simp [solidSpans, isComment_commentItem]
  · rfl

theorem solidSpans_singleton {item : Item} (h : item.isComment = false) :
    solidSpans [item] = [(Node.item item).span] := by
  simp [solidSpans, h]

/-- The parts of a node that holds items, without comments. -/
theorem solidSpans_eq (items : List Item) :
    ((items.map Node.item).filter (!·.isComment)).map Node.span = solidSpans items := by
  rw [List.filter_map, List.map_map]
  rfl

end Item

variable {source : Text} {config : Config}

/-! ## Comments -/

/-- A comment that is cut from the source is printed as it stands there, but for a line break. -/
theorem sourced_commentItem {token : Token} (h : token.IsComment) (hcut : token.CutFrom source)
    (hstart : token.span.start ≤ source.length) :
    (Node.item (commentItem token)).Sourced source := by
  have hwithin := hcut.within hstart
  have htext := hcut.text_eq
  rcases source_of_isComment h with ⟨body, ends, hends, hline, _, hitem⟩ | ⟨body, hblock, _, hitem⟩
  · rw [hitem]
    exact .leaf rfl hwithin ⟨ends, hends, htext.trans hline⟩
  · rw [hitem]
    exact .leaf rfl hwithin (htext.trans hblock)

/-- The comments that a reader collected are sourced. -/
theorem Reader.Logs.sourced {r : Reader} (h : r.Logs source) (config : Config) :
    ∀ item ∈ commentItems config r.comments, (Node.item item).Sourced source := by
  unfold commentItems
  split
  · intro item hitem
    obtain ⟨comment, hcomment, rfl⟩ := List.mem_map.mp hitem
    obtain ⟨hshape, hcut⟩ := h.logged.each comment hcomment
    obtain ⟨_, hle, hplace⟩ := h.logged.row.mem _ (List.mem_map_of_mem hcomment)
    have hlength := h.placed.place_le
    exact sourced_commentItem hshape hcut (by omega)
  · simp

namespace Grammar

/-! ## Scopes -/

/-- The target and the label of the block are sourced and stand in a row before its brace. -/
structure OpenBlock.Headed (source : Text) (block : OpenBlock) : Prop where
  brace : block.brace.span.Within source
  row : Span.Row block.target.span.start
    (block.target.span :: block.label.toList.map (·.span)) block.brace.span.start
  target : block.target.node.Sourced source
  label : ∀ found, block.label = some found → (Node.label found).Sourced source

/-- The items of the innermost scope stand in a row between its brace and the place, and those of
each other scope in a row before the target of its open block. -/
def OpenBlock.Laid (source : Text) (top : List Item) : List OpenBlock → (place : Int) → Prop
  | [], place => Span.Row 0 (Item.solidSpans top) place
  | block :: outer, place =>
    block.Headed source ∧
      Span.Row block.brace.span.stop (Item.solidSpans block.children) place ∧
      Laid source top outer block.target.span.start

/-- What stands in the scopes is sourced and stands in rows up to the place. -/
structure Scopes.Laid (source : Text) (scopes : Scopes) (place : Int) : Prop where
  rows : OpenBlock.Laid source scopes.top scopes.blocks place
  top : ∀ item ∈ scopes.top, (Node.item item).Sourced source
  blocks : ∀ block ∈ scopes.blocks, ∀ item ∈ block.children, (Node.item item).Sourced source

/-- A block is sourced if its items are, and stand in a row between its braces. -/
theorem sourced_block {brace closing : Span} {items : List Item} (hbrace : brace.Within source)
    (hclosing : closing.Within source)
    (hrow : Span.Row brace.stop (Item.solidSpans items) closing.start)
    (hitems : ∀ item ∈ items, (Node.item item).Sourced source) :
    (Node.block ⟨true, brace.cover closing⟩ items).Sourced source := by
  have hopens := hbrace.le
  have hends := hclosing.le
  have hle := hrow.le
  have hstop : (brace.cover closing).stop = closing.stop := Span.stop_cover_of_le (by omega)
  refine .of_row (hbrace.cover hclosing) ?_ (List.forall_mem_map.mpr hitems) trivial
  show Span.Row brace.start (((items.map Node.item).filter (!·.isComment)).map Node.span)
    (brace.cover closing).stop
  rw [Item.solidSpans_eq, hstop]
  exact hrow.mono hopens hends

/-- The spans of the parts of a declaration with a block. -/
theorem spans_container (d : Declaration) (mark : BlockMark) (items : List Item)
    (himported : d.imported = none) :
    (Node.item (.container d mark items)).parts.map Node.span =
      d.target.span :: (d.label.toList.map (·.span) ++ [mark.span]) := by
  simp only [Node.parts, Node.children, Node.ofLabel, Node.ofImport, himported, List.cons_append,
    List.map_cons, List.map_append, List.map_map, span_target]
  rfl

/-- The parts of a declaration with a block are its target, its label and the block. -/
theorem forall_container {P : Node → Prop} {d : Declaration} {mark : BlockMark} {items : List Item}
    (himported : d.imported = none) (htarget : P d.target.node)
    (hlabel : ∀ label, d.label = some label → P (.label label)) (hblock : P (.block mark items)) :
    ∀ part ∈ (Node.item (.container d mark items)).children, P part := by
  simp only [Node.children, Node.ofLabel, Node.ofImport, himported, List.cons_append,
    List.forall_mem_cons, List.forall_mem_append, List.forall_mem_map, Option.mem_toList,
    Option.toList_none, List.not_mem_nil, false_implies, implies_true, and_true]
  exact ⟨htarget, hlabel, hblock⟩

/-- A block that is closed is sourced, if it was headed and its items stand between its braces, and
stands in a row from its target to its closing brace. -/
theorem OpenBlock.Headed.item {block : OpenBlock} {closing : Span} (h : block.Headed source)
    (hclosing : closing.Within source)
    (hrow : Span.Row block.brace.span.stop (Item.solidSpans block.children) closing.start)
    (hitems : ∀ item ∈ block.children, (Node.item item).Sourced source) :
    Span.Row block.target.span.start
        [(Node.item (block.item ⟨true, block.brace.span.cover closing⟩ [])).span] closing.stop ∧
      (Node.item (block.item ⟨true, block.brace.span.cover closing⟩ [])).Sourced source := by
  have hblock := sourced_block h.brace hclosing hrow hitems
  have hmark : (block.brace.span.cover closing).Within source := hblock.faithful.within
  have hstop : (block.brace.span.cover closing).stop = closing.stop := by
    have hle := hrow.le
    have hends := hclosing.le
    exact Span.stop_cover_of_le (by omega)
  have hall : Span.Row block.target.span.start (block.target.span ::
      (block.label.toList.map (·.span) ++ [block.brace.span.cover closing])) closing.stop :=
    h.row.append (.single (Int.le_of_eq (Span.start_cover _ _).symm) hmark.le (Int.le_of_eq hstop))
  have hwithin : ∀ span ∈ block.target.span ::
      (block.label.toList.map (·.span) ++ [block.brace.span.cover closing]),
      span.Within source := by
    simp only [List.forall_mem_cons, List.forall_mem_append, List.forall_mem_map, Option.mem_toList,
      List.not_mem_nil, false_implies, implies_true, and_true]
    refine ⟨?_, fun label hlabel => (h.label label hlabel).faithful.within, hmark⟩
    rw [← span_target]
    exact h.target.faithful.within
  rw [OpenBlock.item, List.append_nil]
  refine Node.Sourced.of_cover hall hwithin ?_ ?_ (forall_container rfl h.target h.label hblock) trivial
  · rw [List.getLast?_concat]
    rfl
  · simp only [spans_container, List.Sublist.refl]

namespace Scopes.Laid

variable {scopes : Scopes} {place place' : Int}

/-- Items that stand in a row after the place are laid in the innermost scope. -/
theorem add {items : List Item} (h : scopes.Laid source place)
    (hrow : Span.Row place (Item.solidSpans items) place')
    (hitems : ∀ item ∈ items, (Node.item item).Sourced source) :
    (scopes.add items).Laid source place' := by
  obtain ⟨top, blocks⟩ := scopes
  cases blocks with
  | nil =>
      have hrows : Span.Row 0 (Item.solidSpans top) place := h.rows
      refine ⟨?_, List.forall_mem_append.mpr ⟨h.top, hitems⟩, h.blocks⟩
      show Span.Row 0 (Item.solidSpans (top ++ items)) place'
      rw [Item.solidSpans_append]
      exact hrows.append hrow
  | cons block outer =>
      obtain ⟨hheaded, hrows, houter⟩ := h.rows
      obtain ⟨hchildren, hothers⟩ := List.forall_mem_cons.mp h.blocks
      refine ⟨⟨⟨hheaded.brace, hheaded.row, hheaded.target, hheaded.label⟩, ?_, houter⟩, h.top, ?_⟩
      · show Span.Row block.brace.span.stop (Item.solidSpans (block.children ++ items)) place'
        rw [Item.solidSpans_append]
        exact hrows.append hrow
      · exact List.forall_mem_cons.mpr ⟨List.forall_mem_append.mpr ⟨hchildren, hitems⟩, hothers⟩

/-- The place may move on. -/
theorem mono (h : scopes.Laid source place) (hle : place ≤ place') : scopes.Laid source place' := by
  have hadded : (scopes.add []).Laid source place' := h.add (.nil hle) (by simp)
  rwa [Scopes.add_nil] at hadded

/-- Comments are laid where they are placed. -/
theorem comments {r : Reader} (h : scopes.Laid source place) (hlogs : r.Logs source)
    (config : Config) : (scopes.add (commentItems config r.comments)).Laid source place := by
  apply h.add _ (hlogs.sourced config)
  rw [Item.solidSpans_commentItems]
  exact .nil (Int.le_refl _)

/-- A block that opens is laid without items, right after its brace. -/
theorem push {block : OpenBlock} (h : scopes.Laid source block.target.span.start)
    (hblock : block.Headed source) (hnone : block.children = []) :
    (scopes.push block).Laid source block.brace.span.stop := by
  have hitems : ∀ item ∈ block.children, (Node.item item).Sourced source := by simp [hnone]
  refine ⟨⟨hblock, ?_, h.rows⟩, h.top, List.forall_mem_cons.mpr ⟨hitems, h.blocks⟩⟩
  rw [hnone]
  exact .nil (Int.le_refl _)

/-- A block that is closed is laid as an item of the scope around it. -/
theorem pop {closing : Span} (h : scopes.Laid source closing.start) (hblocks : scopes.blocks ≠ [])
    (hclosing : closing.Within source) : (scopes.pop closing).Laid source closing.stop := by
  obtain ⟨top, _ | ⟨block, outer⟩⟩ := scopes
  · exact absurd rfl hblocks
  obtain ⟨hheaded, hrow, houter⟩ := h.rows
  obtain ⟨hchildren, hothers⟩ := List.forall_mem_cons.mp h.blocks
  obtain ⟨hitem, hsourced⟩ := hheaded.item hclosing hrow hchildren
  have hrest : Scopes.Laid source ⟨top, outer⟩ block.target.span.start := ⟨houter, h.top, hothers⟩
  apply hrest.add _ (List.forall_mem_singleton.mpr hsourced)
  rw [Item.solidSpans_singleton rfl]
  exact hitem

end Scopes.Laid

/-! ## Sessions -/

/-- The session is on the source with comments cut from it, and what stands in its scopes is laid up
to the place of the reader. -/
structure Session.Laid (source : Text) (S : Session) : Prop where
  logs : S.reader.Logs source
  scopes : S.scopes.Laid source S.reader.place

namespace Session.Laid

variable {S T : Session} {token : Token} {r : Reader}

/-- Looking ahead and placing the comments leaves what was read laid. -/
theorem settled (h : S.Laid source) (hpeek : peek .declaration S.reader = .ok token r) :
    (Grammar.settled config r S.scopes).Laid source := by
  have hlogs := (peek_logs .declaration S.reader h.logs).ok hpeek
  have hskims := ((peek_spots h.logs.sound h.logs.placed .declaration).ok hpeek).skims
  have hnone : Logged source r.emptied.comments r.place :=
    ⟨fun _ hcomment => absurd hcomment List.not_mem_nil, .nil hlogs.logged.row.le⟩
  exact ⟨⟨hlogs.sound.emptied, hlogs.placed, hnone⟩, (h.scopes.mono hskims.le).comments hlogs config⟩

/-- Each turn leaves what was read laid. -/
theorem acts {again : Bool} (h : S.Laid source) (hS : Settled S token)
    (hacts : Acts config token S again T) : T.Laid source := by
  have hpassed : S.reader.consumed.Logs source ∧ S.reader.place ≤ S.reader.consumed.place := by
    have hmoves := hS.shows.moves_consumed hS.sound h.logs.placed
    exact ⟨⟨hmoves.sound, hmoves.placed, h.logs.logged.mono hmoves.le⟩, hmoves.le⟩
  cases hacts with
  | terminator kind => exact ⟨hpassed.1, h.scopes.mono hpassed.2⟩
  | stop => exact h
  | @close r brace blocks finished =>
      have hlogs : r.Logs source := (finishBlock_looks.logs _ hpassed.1).ok finished
      have hskims := ((finishBlock_skims hpassed.1.sound hpassed.1.placed).ok finished).2
      obtain ⟨hstart, _⟩ := hS.shows.span hS.sound
      refine ⟨hlogs, Scopes.Laid.mono (Scopes.Laid.pop (hstart ▸ h.scopes) blocks ?_) ?_⟩
      · exact hS.shows.within hS.sound h.logs.placed
      · rw [← hS.shows.place_consumed hS.sound]
        exact hskims.le
  | @item item r brace read =>
      have hlogs : r.Logs source := (statement_looks.logs _ h.logs).ok read
      obtain ⟨hthreads, hsourced⟩ := (statement_threads hS.sound h.logs.placed).ok read
      refine ⟨hlogs, h.scopes.add ?_ (List.forall_mem_singleton.mpr hsourced)⟩
      have hsolid := Item.isComment_of_isLeaf ((statement_leaf S.reader).ok read _ rfl)
      rw [Item.solidSpans_singleton hsolid]
      exact hthreads.row
  | @opening target label brace r other read allowed =>
      have hlogs : r.Logs source := (statement_looks.logs _ h.logs).ok read
      obtain ⟨hthreads, htarget, hlabel⟩ := (statement_threads hS.sound h.logs.placed).ok read
      have hrow : Span.Row S.reader.place
          ((target.span :: label.toList.map (·.span)) ++ [brace.span]) r.place := hthreads.row
      obtain ⟨hhead, _, hstop⟩ := hrow.before_last
      have hbrace : brace.span.Within source := hthreads.within _ (by simp)
      have hheaded : OpenBlock.Headed source ⟨brace, target, label, []⟩ :=
        ⟨hbrace, hhead.from_first, htarget, hlabel⟩
      have hstart : S.reader.place ≤ target.span.start := (hhead.mem _ List.mem_cons_self).1
      exact ⟨hlogs, ((h.scopes.mono hstart).push hheaded rfl).mono hstop⟩

end Session.Laid

end Grammar

namespace Document

/-- A document that was read has the span of the whole source. -/
theorem span_of_ofText {document : Document} (h : ofText config source = .ok document) :
    document.span = .ofOffsets source 0 source.length := by
  unfold ofText at h
  split at h
  · obtain rfl := Except.ok.inj h
    rfl
  all_goals cases h

/-- Spans are faithful: the span of every node of a tree that was read lies within the source, with
the line and column of its start, and holds the spans of its parts that are no comments, one after
another in the order of the source; and where the node is a leaf the source at its span reads as the
node is printed. -/
theorem ofText_faithful {document : Document} (h : ofText config source = .ok document) :
    ∀ node ∈ (Node.document document).walk, node.Faithful source := by
  obtain ⟨T, hcomes, hscopes⟩ := comes_of_ofText h
  have hempty : Scopes.empty.Laid source 0 :=
    ⟨.nil (Int.le_refl _), by simp [Scopes.empty], by simp [Scopes.empty]⟩
  have hstart : (⟨.ofText source, .empty⟩ : Session).Laid source := ⟨logs_ofText source, hempty⟩
  have hend : T.Laid source := hcomes.keeps (fun _ _ _ _ hpeek hS => hS.settled hpeek)
    (fun _ _ _ _ hS hacts h => h.acts hS hacts) hstart
  have hlaid := hend.scopes
  rw [hscopes] at hlaid
  have hrow : Span.Row 0 (Item.solidSpans document.children) T.reader.place := hlaid.rows
  apply Node.Sourced.walk
  refine .of_row ?_ ?_ (List.forall_mem_map.mpr hlaid.top) trivial
  · exact ⟨0, source.length, Nat.zero_le _, Nat.le_refl _, span_of_ofText h⟩
  · show Span.Row document.span.start
      (((document.children.map Node.item).filter (!·.isComment)).map Node.span) document.span.stop
    rw [Item.solidSpans_eq, span_of_ofText h, Span.start_ofOffsets, Span.stop_ofOffsets]
    exact hrow.mono (Int.le_refl _) hend.logs.placed.place_le

/-- In a source with connected names, code, and a block of a method, an import and a comment. -/
theorem ofText_faithful_block :
    ∃ document, ofText ⟨1, true⟩ "a.'b' -> c: |md x|\nd: \x7be(f, g int); @h #i\n\x7d".toList =
        .ok document ∧
      ∀ node ∈ (Node.document document).walk,
        node.Faithful "a.'b' -> c: |md x|\nd: \x7be(f, g int); @h #i\n\x7d".toList := by
  obtain ⟨document, hdocument⟩ := exists_ok_of_isOk
    (x := ofText ⟨1, true⟩ "a.'b' -> c: |md x|\nd: \x7be(f, g int); @h #i\n\x7d".toList)
    (by decide +kernel)
  exact ⟨document, hdocument, ofText_faithful hdocument⟩

end Document

end DiagramText
