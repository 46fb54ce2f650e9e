import DiagramText.Proofs.Grammar.Spans
import DiagramText.Proofs.Grammar.Steps
import DiagramText.Tree.Walk

/-!
# Nothing visible is dropped

When comments are kept, every character of a source that is neither white space
nor a semicolon lies in the span of some item at the top of the tree, and every
such character between the braces of a block lies in the span of some item of
the block (`Document.ofText_covered`).

While the source is read, what the innermost scope holds covers what was read
since its brace, and what each scope further out holds covers what was read up
to the target of the block that is open in it (`OpenBlock.Filling`).  A block
that is closed is an item that goes on from its target to its brace.
-/

namespace DiagramText

open Grammar Reader

/-- The spans of items. -/
def Item.spans (items : List Item) : List Span :=
  items.map fun item => (Node.item item).span

theorem Item.spans_append (items others : List Item) :
    Item.spans (items ++ others) = Item.spans items ++ Item.spans others :=
  List.map_append

/-- The block stands between two braces of the source, and what is visible between them lies in its
items. -/
def BlockMark.Filled (source : Text) (mark : BlockMark) (items : List Item) : Prop :=
  ∃ opening closing : Nat, mark.span.start = opening ∧ mark.span.stop = closing + 1 ∧
    opening < closing ∧ source[opening]? = some '\x7b' ∧ source[closing]? = some '\x7d' ∧
      Covered source (Item.spans items) (opening + 1) closing

/-- All blocks that stand in the item are filled. -/
inductive Item.Filled (source : Text) : Item → Prop
  | leaf {item : Item} (leaf : item.isLeaf = true) : Filled source item
  | comment (token : Token) : Filled source (commentItem token)
  | container {declaration : Declaration} {mark : BlockMark} {children : List Item}
      (block : mark.Filled source children) (within : ∀ child ∈ children, Filled source child) :
      Filled source (.container declaration mark children)

theorem Item.Filled.container_iff {source : Text} {declaration : Declaration} {mark : BlockMark}
    {children : List Item} :
    (Item.container declaration mark children).Filled source ↔
      mark.Filled source children ∧ ∀ child ∈ children, child.Filled source := by
  constructor
  · intro h
    generalize hitem : Item.container declaration mark children = item at h
    cases h with
    | leaf leaf =>
        subst hitem
        cases leaf
    | comment token =>
        unfold commentItem at hitem
        split at hitem <;> cases hitem
    | container block within =>
        obtain ⟨rfl, rfl, rfl⟩ := Item.container.inj hitem
        exact ⟨block, within⟩
  · rintro ⟨block, within⟩
    exact .container block within

namespace Grammar

variable {source : Text} {config : Config}

/-- The items of comments that are kept have the spans of the comments. -/
theorem spans_commentItems (hkeep : config.keepComments = true) (comments : List Token) :
    Item.spans (commentItems config comments) = comments.map (·.span) := by
  rw [commentItems, if_pos hkeep, Item.spans, List.map_map]
  exact List.map_congr_left fun comment _ => span_commentItem comment

/-! ## Scopes -/

/-- What the innermost scope holds, with the further spans, covers what was read since its brace up
to the place, and what each other scope holds covers what was read in it up to the target of its
open block. -/
def OpenBlock.Filling (source : Text) (top : List Item) :
    List OpenBlock → (further : List Span) → (place : Int) → Prop
  | [], further, place => Covered source (Item.spans top ++ further) 0 place
  | block :: outer, further, place =>
    StandsAt source '\x7b' block.brace.span ∧ block.target.span.start ≤ block.brace.span.stop ∧
      block.brace.span.stop ≤ place ∧
      Covered source (Item.spans block.children ++ further) block.brace.span.stop place ∧
      Filling source top outer [] block.target.span.start

namespace Scopes

/-- What stands in the scopes, with the further spans, covers what was read up to the place, and all
blocks that are closed are filled. -/
structure Filling (source : Text) (scopes : Scopes) (further : List Span) (place : Int) : Prop where
  covered : OpenBlock.Filling source scopes.top scopes.blocks further place
  top : ∀ item ∈ scopes.top, item.Filled source
  blocks : ∀ block ∈ scopes.blocks, ∀ item ∈ block.children, item.Filled source

variable {scopes : Scopes} {further further' : List Span} {place place' : Int}

/-- The place moves on past what the further spans cover. -/
theorem Filling.extend (h : scopes.Filling source further place) (hle : place ≤ place')
    (hsub : further ⊆ further') (hcovered : Covered source further' place place') :
    scopes.Filling source further' place' := by
  obtain ⟨top, blocks⟩ := scopes
  have hwider : ∀ spans : List Span, spans ++ further ⊆ spans ++ further' := fun spans =>
    List.append_subset.mpr ⟨List.subset_append_left _ _,
      List.Subset.trans hsub (List.subset_append_right _ _)⟩
  refine ⟨?_, h.top, h.blocks⟩
  cases blocks with
  | nil =>
      have hbefore : Covered source (Item.spans top ++ further) 0 place := h.covered
      exact (hbefore.mono (hwider _)).append
        (hcovered.mono (List.subset_append_right _ _))
  | cons block outer =>
      obtain ⟨hbrace, htarget, hstop, hbefore, houter⟩ := h.covered
      refine ⟨hbrace, htarget, Int.le_trans hstop hle, ?_, houter⟩
      exact (hbefore.mono (hwider _)).append
        (hcovered.mono (List.subset_append_right _ _))

/-- Items take the place of their spans. -/
theorem Filling.add {items : List Item}
    (h : scopes.Filling source (Item.spans items ++ further) place)
    (hitems : ∀ item ∈ items, item.Filled source) :
    (scopes.add items).Filling source further place := by
  obtain ⟨top, blocks⟩ := scopes
  cases blocks with
  | nil =>
      refine ⟨?_, List.forall_mem_append.mpr ⟨h.top, hitems⟩, h.blocks⟩
      have hcovered : Covered source (Item.spans top ++ (Item.spans items ++ further)) 0 place :=
        h.covered
      rw [← List.append_assoc, ← Item.spans_append] at hcovered
      exact hcovered
  | cons block outer =>
      obtain ⟨hbrace, htarget, hstop, hcovered, houter⟩ := h.covered
      rw [← List.append_assoc, ← Item.spans_append] at hcovered
      have hblocks := List.forall_mem_cons.mp h.blocks
      refine ⟨⟨hbrace, htarget, hstop, hcovered, houter⟩, h.top, ?_⟩
      exact List.forall_mem_cons.mpr ⟨List.forall_mem_append.mpr ⟨hblocks.1, hitems⟩, hblocks.2⟩

/-- A block that opens holds nothing yet, right after its brace. -/
theorem Filling.push {target : Target} {label : Option Label} {brace : Token}
    (h : scopes.Filling source [] target.span.start) (hbrace : StandsAt source '\x7b' brace.span)
    (htarget : target.span.start ≤ brace.span.stop) (further : List Span) :
    (scopes.push ⟨brace, target, label, []⟩).Filling source further brace.span.stop := by
  refine ⟨⟨hbrace, htarget, Int.le_refl _, .of_le (Int.le_refl _), h.covered⟩, h.top, ?_⟩
  exact List.forall_mem_cons.mpr ⟨by simp, h.blocks⟩

/-- A block that is closed goes on from its target to its brace. -/
theorem Filling.pop {closing : Span} (h : scopes.Filling source [] closing.start)
    (hblocks : scopes.blocks ≠ []) (hclosing : StandsAt source '\x7d' closing)
    (further : List Span) : (scopes.pop closing).Filling source further closing.stop := by
  obtain ⟨top, _ | ⟨block, outer⟩⟩ := scopes
  · exact absurd rfl hblocks
  obtain ⟨hbrace, htarget, hstop, hcovered, houter⟩ := h.covered
  have hfilled := List.forall_mem_cons.mp h.blocks
  have hrest : Filling source ⟨top, outer⟩ [] block.target.span.start :=
    ⟨houter, h.top, hfilled.2⟩
  obtain ⟨opening, hopening, hopening', hopens⟩ := hbrace
  obtain ⟨closed, hclosed, hclosed', hcloses⟩ := hclosing
  have hmark : (block.brace.span.cover closing).stop = closing.stop := by
    simp only [Span.cover]
    omega
  have hitem : Covered source [block.target.span.cover (block.brace.span.cover closing)]
      block.target.span.start closing.stop := by
    refine .of_mem (List.mem_singleton_self _) (Int.le_refl _) ?_
    rw [Span.cover, hmark]
    exact Int.le_max_right _ _
  refine Filling.add (hrest.extend ?_ (List.nil_subset _) ?_) (List.forall_mem_singleton.mpr ?_)
  · omega
  · exact hitem.mono (List.subset_append_left _ _)
  · refine .container ⟨opening, closed, hopening, ?_, by omega, hopens, hcloses, ?_⟩ ?_
    · rw [hmark, hclosed']
    · simpa only [List.append_nil, ← hopening', ← hclosed] using hcovered
    · simpa using hfilled.1

end Scopes

/-! ## Sessions -/

/-- The session is on the source, and its scopes and comments cover what was read. -/
structure Session.Fills (source : Text) (S : Session) : Prop where
  sound : S.reader.Sound
  placed : S.reader.Placed source
  filling : S.scopes.Filling source S.reader.commentSpans S.reader.place

variable {S T : Session} {token : Token} {r : Reader}

/-- A reader that skims leaves what was read covered. -/
theorem Session.Fills.skims (h : S.Fills source) (hr : r.Sound) (hskims : Skims source S.reader r) :
    (⟨r, S.scopes⟩ : Session).Fills source :=
  ⟨hr, hskims.placed,
    h.filling.extend hskims.le (commentSpans_subset hskims.comments) hskims.covered⟩

/-- Looking ahead and placing the comments leaves what was read covered. -/
theorem Session.Fills.settled (h : S.Fills source) (hkeep : config.keepComments = true)
    (hpeek : peek .declaration S.reader = .ok token r) :
    (Grammar.settled config r S.scopes).Fills source := by
  have hspots := (peek_spots h.sound h.placed .declaration).ok hpeek
  have hfills := h.skims hspots.sound hspots.skims
  refine ⟨hspots.sound.emptied, hfills.placed, ?_⟩
  have hspans : r.commentSpans = Item.spans (commentItems config r.comments) ++ [] := by
    rw [spans_commentItems hkeep, List.append_nil]
    rfl
  have hfilling := hfills.filling
  simp only [hspans] at hfilling
  refine hfilling.add ?_
  rw [commentItems, if_pos hkeep]
  exact List.forall_mem_map.mpr fun comment _ => .comment comment

/-- Each turn leaves what was read covered. -/
theorem Session.Fills.acts {again : Bool} (h : S.Fills source) (hS : Settled S token)
    (hacts : Acts config token S again T) : T.Fills source := by
  have hnone : S.reader.commentSpans = [] := by rw [commentSpans, hS.comments, List.map_nil]
  have hfilling := h.filling
  rw [hnone] at hfilling
  cases hacts with
  | terminator kind =>
      exact h.skims hS.sound.consumed (hS.shows.skims_consumed hS.sound h.placed kind)
  | stop => exact h
  | @close r brace blocks finished =>
      obtain ⟨hchar, hstop⟩ := hS.shows.getElem?_mark hS.sound h.placed brace
      have hstart := (hS.shows.span hS.sound).1
      have hplaced := hS.shows.placed_consumed hS.sound h.placed
      obtain ⟨hsound, hskims⟩ := (finishBlock_skims hS.sound.consumed hplaced).ok finished
      have hpop := Scopes.Filling.pop (hstart ▸ hfilling) blocks ⟨_, hstart, hstop, hchar⟩
        S.reader.consumed.commentSpans
      have hconsumed : (⟨S.reader.consumed, S.scopes.pop token.span⟩ : Session).Fills source :=
        ⟨hS.sound.consumed, hplaced, (hS.shows.place_consumed hS.sound).symm ▸ hpop⟩
      exact hconsumed.skims hsound hskims
  | @item item r brace read =>
      have hstretches : Stretches source S.reader (Node.item item).span r :=
        (statement_stretches hS.sound h.placed hS.shows).ok read
      refine ⟨hstretches.moves.sound, hstretches.moves.placed, ?_⟩
      refine Scopes.Filling.add (hfilling.extend hstretches.moves.le (List.nil_subset _) ?_) ?_
      · have hspan : Covered source [(Node.item item).span] S.reader.place (Node.item item).span.stop :=
          .of_mem (List.mem_singleton_self _) (Int.le_of_eq (hstretches.start _ hS.shows))
            (Int.le_refl _)
        exact (hspan.mono (List.subset_append_left _ _)).append
          (hstretches.touches.mono (List.subset_append_right _ _))
      · exact List.forall_mem_singleton.mpr (.leaf ((statement_leaf S.reader).ok read _ rfl))
  | @opening target label brace r other read allowed =>
      obtain ⟨hmoves, hstart, hbrace, hstop⟩ :=
        (statement_stretches hS.sound h.placed hS.shows).ok read
      have hstart := hstart _ hS.shows
      refine ⟨hmoves.sound, hmoves.placed, ?_⟩
      rw [← hstop]
      refine Scopes.Filling.push (hstart ▸ hfilling) hbrace ?_ _
      rw [hstart, hstop]
      exact hmoves.le

end Grammar

namespace Node

/-- All blocks of the node are filled. -/
def Filled (source : Text) : Node → Prop
  | .document d => ∀ child ∈ d.children, child.Filled source
  | .item i => i.Filled source
  | .block mark items => mark.Filled source items ∧ ∀ child ∈ items, child.Filled source
  | _ => True

/-- A node that is no document, item or block has no items or blocks below it. -/
theorem filled_of_isPhrase {source : Text} {node : Node} (h : node.isPhrase = true) :
    node.Filled source := by
  cases node with
  | document | item | block => cases h
  | _ => trivial

/-- All blocks of the parts of a node are filled. -/
theorem Filled.children {source : Text} {node : Node} (h : node.Filled source) :
    ∀ part ∈ node.children, part.Filled source := by
  refine forall_children (fun part => filled_of_isPhrase) ?_ ?_ ?_ ?_ ?_
  · exact fun _ => .leaf rfl
  · exact fun _ _ _ _ => trivial
  · rintro d mark items rfl
    exact Item.Filled.container_iff.mp h
  · rintro d rfl
    exact h
  · rintro mark items rfl
    exact h.2

end Node

namespace Document

/-- Nothing visible is dropped: when comments are kept, whatever is neither white space nor a
semicolon lies in the span of an item at the top, and in that of an item of every block between
whose braces it stands. -/
theorem ofText_covered {maxDepth : Int} {source : Text} {document : Document}
    (h : ofText ⟨maxDepth, true⟩ source = .ok document) :
    Covered source (Item.spans document.children) 0 source.length ∧
      ∀ mark items, .block mark items ∈ (Node.document document).walk →
        mark.Filled source items := by
  obtain ⟨T, hcomes, hscopes⟩ := comes_of_ofText h
  have hempty : Scopes.empty.Filling source [] 0 := ⟨.of_le (Int.le_refl _), by simp [Scopes.empty],
    by simp [Scopes.empty]⟩
  have hstart : (⟨.ofText source, .empty⟩ : Session).Fills source :=
    ⟨sound_ofText source, placed_ofText source, hempty⟩
  have hend : T.Fills source := hcomes.keeps (fun _ _ _ _ hpeek hS => hS.settled rfl hpeek)
    (fun _ _ _ _ hS hacts h => h.acts hS hacts) hstart
  have hfilling := hend.filling
  rw [hscopes] at hfilling
  refine ⟨?_, fun mark items hblock => ?_⟩
  · have hcovered : Covered source (Item.spans document.children ++ T.reader.commentSpans) 0
        T.reader.place := hfilling.covered
    have hplace : (source.length : Int) ≤ T.reader.place := by
      have hrest := hend.placed.rest
      rw [← text_eq_front, hcomes.text] at hrest
      have hlength := congrArg List.length hrest
      rw [List.length_nil, List.length_drop] at hlength
      rw [Reader.place]
      omega
    have hnone : T.reader.commentSpans = [] := by rw [commentSpans, hcomes.comments, List.map_nil]
    rw [hnone, List.append_nil] at hcovered
    exact fun offset hfrom hto => hcovered offset hfrom (by omega)
  · have hdocument : (Node.document document).Filled source := hfilling.top
    exact (Node.forall_walk (fun _ => Node.Filled.children) hdocument _ hblock).1

/-- In a source with comments before, in and after a block. -/
theorem ofText_covered_comments :
    ∃ document, ofText ⟨1, true⟩ "a: 1 #b\n'c' \x22\x22\x22d\x22\x22\x22: \x7be; f\x7d #g".toList =
        .ok document ∧
      Covered "a: 1 #b\n'c' \x22\x22\x22d\x22\x22\x22: \x7be; f\x7d #g".toList
        (Item.spans document.children) 0 30 ∧
      ∀ mark items, .block mark items ∈ (Node.document document).walk →
        mark.Filled "a: 1 #b\n'c' \x22\x22\x22d\x22\x22\x22: \x7be; f\x7d #g".toList items := by
  obtain ⟨document, hdocument⟩ := exists_ok_of_isOk
    (x := ofText ⟨1, true⟩ "a: 1 #b\n'c' \x22\x22\x22d\x22\x22\x22: \x7be; f\x7d #g".toList)
    (by decide +kernel)
  exact ⟨document, hdocument, ofText_covered hdocument⟩

end Document

end DiagramText
