import Mathlib.Data.List.Chain
import DiagramText.Proofs.Grammar.Spans
import DiagramText.Proofs.Items

/-!
# Statements do not run together

Between an item of a scope and the next one that is no comment stands what ends
a statement: a semicolon, a line break, or a line comment that ends with one
(`Parted`).  Only after a block nothing is needed.  So it is at the top of a
document and in every block (`Document.ofText_separate`).

While the source is read all items of the open scopes are parted from the next
ones (`Scopes.Separate`).  What the last item waits for depends on its scope.  In
the innermost one it rests on the reader, which is past an end of the statement
or has a closing brace or the end of the source ahead (`Reader.Rests`), where no
statement can begin.  In a scope further out the next item is the block that is
open in it, and its target has been read.
-/

namespace DiagramText

open Grammar Reader

variable {source : Text} {config : Config}

namespace Item

/-- The items that are no comments. -/
def solid (items : List Item) : List Item :=
  items.filter (!·.isComment)

/-- What is solid of items one after the other is that of both. -/
theorem solid_append (items others : List Item) :
    solid (items ++ others) = solid items ++ solid others :=
  List.filter_append _ _

theorem solid_singleton {item : Item} (h : item.isComment = false) : solid [item] = [item] := by
  simp [solid, h]

/-- Comments are not solid. -/
theorem solid_commentItems (config : Config) (comments : List Token) :
    solid (commentItems config comments) = [] := by
  refine List.filter_eq_nil_iff.mpr fun item hitem => ?_
  obtain ⟨comment, _, rfl⟩ := mem_commentItems hitem
  simp [isComment_commentItem]

/-- Each item that is no comment and has no block is parted in the source from the next one that is no
comment. -/
def Separate (source : Text) (items : List Item) : Prop :=
  (solid items).IsChain fun item next =>
    item.isLeaf = true → Parted source (Node.item item).span.stop (Node.item next).span.start

/-- The items in the block of the item are separate. -/
def SeparateWithin (source : Text) (item : Item) : Prop :=
  Separate source item.within

/-- An item without a block has nothing to separate within. -/
theorem separateWithin_of_within {item : Item} (h : item.within = []) :
    item.Each (·.SeparateWithin source) := by
  refine .of_within h ?_
  rw [SeparateWithin, h]
  exact .nil

end Item

namespace Grammar

/-! ## Scopes -/

/-- The items of a scope and of the blocks below it are separate, and the condition holds of the span of
the last one, if it has no block. -/
structure Series (source : Text) (rests : Span → Prop) (items : List Item) : Prop where
  each : ∀ item ∈ items, item.Each (·.SeparateWithin source)
  separate : Item.Separate source items
  last : ∀ item ∈ (Item.solid items).getLast?, item.isLeaf = true → rests (Node.item item).span

namespace Series

variable {rests rests' : Span → Prop} {items : List Item}

theorem nil : Series source rests [] :=
  ⟨by simp, .nil, by simp [Item.solid]⟩

/-- Items rest if less is asked of the last one. -/
theorem mono (h : Series source rests items) (hrests : ∀ span, rests span → rests' span) :
    Series source rests' items :=
  ⟨h.each, h.separate, fun item hitem hleaf => hrests _ (h.last item hitem hleaf)⟩

/-- Comments may stand behind the last item. -/
theorem add_comments (h : Series source rests items) (comments : List Token) :
    Series source rests (items ++ commentItems config comments) := by
  have hsolid : Item.solid (items ++ commentItems config comments) = Item.solid items := by
    rw [Item.solid_append, Item.solid_commentItems, List.append_nil]
  refine ⟨List.forall_mem_append.mpr ⟨h.each, fun item hitem => ?_⟩, ?_, ?_⟩
  · obtain ⟨comment, _, rfl⟩ := mem_commentItems hitem
    exact Item.separateWithin_of_within (Item.within_commentItem comment)
  · rw [Item.Separate, hsolid]
    exact h.separate
  · rw [hsolid]
    exact h.last

/-- An item follows that begins where the one before it is parted from. -/
theorem add {item : Item} (h : Series source rests items)
    (hitem : item.Each (·.SeparateWithin source)) (hsolid : item.isComment = false)
    (hparted : ∀ span, rests span → Parted source span.stop (Node.item item).span.start)
    (hrests : item.isLeaf = true → rests' (Node.item item).span) :
    Series source rests' (items ++ [item]) := by
  have happend : Item.solid (items ++ [item]) = Item.solid items ++ [item] := by
    rw [Item.solid_append, Item.solid_singleton hsolid]
  refine ⟨List.forall_mem_append.mpr ⟨h.each, List.forall_mem_singleton.mpr hitem⟩, ?_, ?_⟩
  · rw [Item.Separate, happend]
    refine List.isChain_append.mpr ⟨h.separate, .singleton _, fun before hbefore next hnext => ?_⟩
    obtain rfl := Option.some.inj hnext
    exact fun hleaf => hparted _ (h.last before hbefore hleaf)
  · rw [happend, List.getLast?_append]
    rintro _ ⟨⟩
    exact hrests

end Series

/-- The items at the top and in the open blocks are separate, and the condition holds of the last one of
the innermost scope.  That of each other scope is parted from the block that is open in it. -/
def OpenBlock.Separate (source : Text) (top : List Item) :
    (rests : Span → Prop) → List OpenBlock → Prop
  | rests, [] => Series source rests top
  | rests, block :: outer =>
    Series source rests block.children ∧
      Separate source top (fun span => Parted source span.stop block.target.span.start) outer

namespace Scopes

def Separate (source : Text) (rests : Span → Prop) (scopes : Scopes) : Prop :=
  OpenBlock.Separate source scopes.top rests scopes.blocks

namespace Separate

variable {scopes : Scopes} {rests rests' : Span → Prop} {items : List Item}

/-- What becomes of the innermost scope leaves the others as they are. -/
theorem add (h : scopes.Separate source rests)
    (hitems : ∀ before, Series source rests before → Series source rests' (before ++ items)) :
    (scopes.add items).Separate source rests' := by
  obtain ⟨top, _ | ⟨block, outer⟩⟩ := scopes
  · exact hitems top h
  · exact ⟨hitems block.children h.1, h.2⟩

/-- Scopes are separate if less is asked of the last item. -/
theorem mono (h : scopes.Separate source rests) (hrests : ∀ span, rests span → rests' span) :
    scopes.Separate source rests' := by
  obtain ⟨top, _ | ⟨block, outer⟩⟩ := scopes
  · exact Series.mono h hrests
  · exact ⟨h.1.mono hrests, h.2⟩

/-- A block opens at its target, from which the item before it is parted. -/
theorem push {target : Target} (h : scopes.Separate source rests)
    (hparted : ∀ span, rests span → Parted source span.stop target.span.start)
    (label : Option Label) (brace : Token) :
    (scopes.push ⟨brace, target, label, []⟩).Separate source rests' :=
  ⟨.nil, h.mono hparted⟩

/-- A block that is closed goes on from its target, and nothing has to part it from what follows. -/
theorem pop (h : scopes.Separate source rests) (hblocks : scopes.blocks ≠ []) (closing : Span) :
    (scopes.pop closing).Separate source rests' := by
  obtain ⟨top, _ | ⟨block, outer⟩⟩ := scopes
  · exact absurd rfl hblocks
  have houter : Separate source (fun span => Parted source span.stop block.target.span.start)
      ⟨top, outer⟩ := h.2
  refine houter.add fun before hbefore => hbefore.add ?_ rfl (fun _ hparted => hparted) nofun
  refine .intro ?_ ?_
  · rw [Item.SeparateWithin, block.within_item]
    exact h.1.separate
  · rw [block.within_item]
    exact h.1.each

end Separate

end Scopes

/-! ## Sessions -/

/-- The session is on the source, its scopes are separate, and the last item of the innermost one rests
on the reader. -/
structure Session.Separate (source : Text) (S : Session) : Prop where
  sound : S.reader.Sound
  placed : S.reader.Placed source
  scopes : S.scopes.Separate source fun span => Rests source span S.reader

variable {S T : Session} {token : Token} {r : Reader} {again : Bool}

/-- Looking ahead and placing the comments leaves the scopes separate. -/
theorem Session.Separate.settled (h : S.Separate source)
    (hpeek : peek .declaration S.reader = .ok token r) :
    (Grammar.settled config r S.scopes).Separate source := by
  have hspots := (peek_spots h.sound h.placed .declaration).ok hpeek
  refine ⟨hspots.sound.emptied, hspots.skims.placed, ?_⟩
  have hrests : ∀ span, Rests source span S.reader → Rests source span r := fun _ hrests =>
    hrests.peek h.sound h.placed hpeek
  exact h.scopes.add fun before hbefore => (hbefore.mono hrests).add_comments _

/-- A statement begins neither at a closing brace nor at the end of the source. -/
theorem parted_of_statement {read : Statement} (hS : Settled S token)
    (hbrace : ¬ token.isPunct '\x7d' = true) (hread : statement S.reader = .ok read r) (span : Span)
    (hrests : Rests source span S.reader) : Parted source span.stop S.reader.place := by
  refine hrests.parted hS.shows hbrace fun heof => ?_
  have hless := ((statement_spec hS.sound).ok hread).1.lt
  rw [S.reader.ahead_eq, (hS.shows.eof_iff hS.sound).mp heof] at hless
  exact Nat.not_lt_zero _ hless

/-- Each turn leaves the scopes separate. -/
theorem Session.Separate.acts (h : S.Separate source) (hS : Settled S token)
    (hacts : Acts config token S again T) : T.Separate source := by
  cases hacts with
  | terminator kind =>
      refine ⟨hS.sound.consumed, hS.shows.placed_consumed hS.sound h.placed, ?_⟩
      exact h.scopes.mono fun _ hrests => hrests.consumed hS.sound h.placed hS.shows kind
  | stop => exact h
  | @close r brace blocks finished =>
      have hplaced := hS.shows.placed_consumed hS.sound h.placed
      obtain ⟨hsound, hskims⟩ := (finishBlock_skims hS.sound.consumed hplaced).ok finished
      exact ⟨hsound, hskims.placed, h.scopes.pop blocks _⟩
  | @item item r brace read =>
      have hcloses := (statement_closes hS.sound h.placed hS.shows).ok read
      have hstretches : Stretches source S.reader (Node.item item).span r := hcloses.stretches
      have hleaf := (statement_leaf S.reader).ok read _ rfl
      refine ⟨hstretches.moves.sound, hstretches.moves.placed, h.scopes.add fun before hbefore => ?_⟩
      refine hbefore.add (Item.separateWithin_of_within (Item.within_of_isLeaf hleaf))
        (Item.isComment_of_isLeaf hleaf) (fun span hrests => ?_) fun _ => hcloses.rests
      rw [hstretches.start _ hS.shows]
      exact parted_of_statement hS brace read span hrests
  | @opening target label opened r brace read allowed =>
      have hcloses := (statement_closes hS.sound h.placed hS.shows).ok read
      obtain ⟨hmoves, hstart, _⟩ := hcloses.stretches
      refine ⟨hmoves.sound, hmoves.placed, h.scopes.push (fun span hrests => ?_) _ _⟩
      rw [hstart _ hS.shows]
      exact parted_of_statement hS brace read span hrests

end Grammar

namespace Document

/-- Statements do not run together: at the top of the document and in every block what ends a statement
stands between an item and the next one that is no comment, unless the item has a block. -/
theorem ofText_separate {document : Document} (h : ofText config source = .ok document) :
    Item.Separate source document.children ∧
      ∀ mark items, .block mark items ∈ (Node.document document).walk →
        Item.Separate source items := by
  obtain ⟨T, hcomes, hscopes⟩ := comes_of_ofText h
  have hstart : (⟨.ofText source, .empty⟩ : Session).Separate source :=
    ⟨sound_ofText source, placed_ofText source, Series.nil⟩
  have hend : T.Separate source := hcomes.keeps (fun _ _ _ _ hpeek hS => hS.settled hpeek)
    (fun _ _ _ _ hS hacts h => h.acts hS hacts) hstart
  have hseparate := hend.scopes
  rw [hscopes] at hseparate
  have htop : Series source _ document.children := hseparate
  refine ⟨htop.separate, fun mark items hblock => ?_⟩
  obtain ⟨_, hitem⟩ := (walk_each (fun _ => .nil) htop.each).1 mark items hblock
  exact hitem

/-- In a source where comments, a semicolon and a line break end statements, and one follows a block. -/
theorem ofText_separate_comment :
    ∃ document, ofText ⟨1, true⟩ "a: 1 #b\nc; d: \x7be: [x;\ny] #f\n\ng(h #i\n)\nj\x7d k".toList =
        .ok document ∧
      Item.Separate "a: 1 #b\nc; d: \x7be: [x;\ny] #f\n\ng(h #i\n)\nj\x7d k".toList
        document.children ∧
      ∀ mark items, .block mark items ∈ (Node.document document).walk →
        Item.Separate "a: 1 #b\nc; d: \x7be: [x;\ny] #f\n\ng(h #i\n)\nj\x7d k".toList items := by
  obtain ⟨document, hdocument⟩ := exists_ok_of_isOk
    (x := ofText ⟨1, true⟩ "a: 1 #b\nc; d: \x7be: [x;\ny] #f\n\ng(h #i\n)\nj\x7d k".toList)
    (by decide +kernel)
  exact ⟨document, hdocument, ofText_separate hdocument⟩

end Document

end DiagramText
