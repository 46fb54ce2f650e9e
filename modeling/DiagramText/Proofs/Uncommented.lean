import DiagramText.Proofs.Comments
import DiagramText.Proofs.Reprint

/-!
# Reprinting without comments

A label text such as `1` is a text only because of what follows it on its line.
Where that was a comment, a document that was read without its comments has
lost it, and the canonical source has the number (`Document.canonical_comment_lost`).

Where every such label stands right before the closing brace of a block, nothing
is lost: the document read without comments is read again from its canonical
source, still without comments (`Document.ofText_canonical_uncommented`).
-/

namespace DiagramText

open Grammar

namespace Item

theorem isComment_withoutComments (item : Item) :
    item.withoutComments.isComment = item.isComment := by
  cases item <;> rfl

theorem isComment_bare (item : Item) : item.bare.isComment = item.isComment := by
  cases item <;> rfl

mutual

/-- What has no comments stays as it is. -/
theorem withoutComments_withoutComments (item : Item) :
    item.withoutComments.withoutComments = item.withoutComments := by
  cases item with
  | container head mark children =>
      simp only [withoutComments, dropComments_dropComments children]
  | _ => rfl

theorem dropComments_dropComments (items : List Item) :
    dropComments (dropComments items) = dropComments items := by
  cases items with
  | nil => rfl
  | cons item others =>
      have hothers := dropComments_dropComments others
      rw [dropComments]
      split
      · exact hothers
      · next hplain =>
          rw [dropComments, isComment_withoutComments, if_neg hplain,
            withoutComments_withoutComments item, hothers]

end

mutual

/-- Spans and comments are forgotten in either order. -/
theorem bare_withoutComments (item : Item) :
    item.withoutComments.bare = item.bare.withoutComments := by
  cases item with
  | container head mark children =>
      simp only [withoutComments, bare, bareAll_dropComments children]
  | _ => rfl

theorem bareAll_dropComments (items : List Item) :
    bareAll (dropComments items) = dropComments (bareAll items) := by
  cases items with
  | nil => rfl
  | cons item others =>
      have hothers := bareAll_dropComments others
      rw [dropComments, bareAll, dropComments, isComment_bare]
      split
      · exact hothers
      · rw [bareAll, bare_withoutComments item, hothers]

end

/-- Whether the item is a block with nothing but one leaf in it. -/
def wrapsLeaf : Item → Bool
  | .container _ _ [child] => child.isLeaf
  | _ => false

/-- Items that need nothing after them do not wait. -/
theorem glued_of_free {items : List Item} (h : ∀ item ∈ items, item.needsGlue = false) :
    Glued false items := by
  induction items with
  | nil => trivial
  | cons item items ih =>
      obtain ⟨hitem, hitems⟩ := List.forall_mem_cons.mp h
      cases items with
      | nil => simp [Glued, hitem]
      | cons next others => exact ⟨by simp [hitem], ih hitems⟩

end Item

/-- A leaf that is alone in its block is followed by the closing brace. -/
theorem Grammar.row_of_wrapsLeaf {items : List Item} (h : ∀ item ∈ items, item.wrapsLeaf = true) :
    Row false items := by
  have hblock : ∀ item ∈ items, item.Tidy ∧ item.needsGlue = false := by
    intro item hitem
    have hwraps := h item hitem
    unfold Item.wrapsLeaf at hwraps
    split at hwraps
    · exact ⟨.container (List.forall_mem_singleton.mpr (.leaf hwraps)) fun _ => rfl, rfl⟩
    · cases hwraps
  constructor
  · exact fun item hitem => (hblock item hitem).1
  · exact Item.glued_of_free fun item hitem => (hblock item hitem).2

namespace Document

/-- A document that was read without its comments has none. -/
theorem withoutComments_of_ofText {maxDepth : Int} {source : Text} {document : Document}
    (h : ofText ⟨maxDepth, false⟩ source = .ok document) :
    document.withoutComments = document := by
  rw [ofText_withoutComments] at h
  cases hwith : ofText ⟨maxDepth, true⟩ source with
  | error failure =>
      rw [hwith] at h
      cases h
  | ok commented =>
      rw [hwith] at h
      obtain rfl := Except.ok.inj h
      simp only [withoutComments, Item.dropComments_dropComments]

/-- Documents that are the same up to spans are the same without comments. -/
theorem bare_withoutComments_congr {a b : Document} (h : a.bare = b.bare) :
    a.withoutComments.bare = b.withoutComments.bare := by
  have hchildren : Item.bareAll a.children = Item.bareAll b.children := congrArg children h
  simp only [withoutComments, bare, Item.bareAll_dropComments, hchildren]

variable {maxDepth : Int} {indent source : Text} {document : Document}

/-- A document that was read without its comments, in which each label text that would read as a
number or a boolean before a blank stands right before a closing brace, is read again from its
canonical source: without comments it gives the same document up to spans. -/
theorem ofText_canonical_uncommented (hindent : indent.all isInlineBlank = true)
    (h : ofText ⟨maxDepth, false⟩ source = .ok document) (hrow : Row false document.children) :
    ∃ reread, ofText ⟨maxDepth, false⟩ (document.canonical indent) = .ok reread ∧
      reread.bare = document.bare := by
  have hwritten : ∀ item ∈ document.children, item.Written maxDepth 0 := written_of_ofText h
  have hready : Canonical.Ready ⟨maxDepth, true⟩ [(document.children, 0)] [] .empty :=
    ⟨⟨⟨rfl, hwritten, hrow⟩, trivial⟩, fun _ => rfl, .nil⟩
  obtain ⟨commented, hcommented, hsame⟩ := reread_of_ready rfl hindent hready
  refine ⟨commented.withoutComments, ?_, ?_⟩
  · rw [ofText_withoutComments, hcommented]
  · rw [bare_withoutComments_congr hsame, withoutComments_of_ofText h]

/-- The text stands before a closing brace, and the comment after the brace is lost without harm. -/
theorem ofText_canonical_uncommented_brace :
    ∃ document, ofText ⟨1, false⟩ "a: \x7bb: 1\x7d #c".toList = .ok document ∧
      Row false document.children ∧
      ∃ reread, ofText ⟨1, false⟩ (document.canonical ['\t']) = .ok reread ∧
        reread.bare = document.bare := by
  have hshape : (ofText ⟨1, false⟩ "a: \x7bb: 1\x7d #c".toList).toOption.any (fun document =>
      document.children.all (·.wrapsLeaf)) = true := by decide +kernel
  obtain ⟨document, hdocument, hchildren⟩ := exists_ok_of_any hshape
  have hrow : Row false document.children := row_of_wrapsLeaf (List.all_eq_true.mp hchildren)
  exact ⟨document, hdocument, hrow, ofText_canonical_uncommented (by decide) hdocument hrow⟩

/-- The comment that made the label a text is gone, and the canonical source has a number. -/
theorem canonical_comment_lost :
    ∃ document, ofText ⟨100, false⟩ "a: 1#c".toList = .ok document ∧
      ∃ reread, ofText ⟨100, false⟩ (document.canonical [' ', ' ']) = .ok reread ∧
        reread.bare ≠ document.bare := by
  have hcheck : (ofText ⟨100, false⟩ "a: 1#c".toList).toOption.any (fun document =>
      (ofText ⟨100, false⟩ (document.canonical [' ', ' '])).toOption.any fun reread =>
        !reread.same document) = true := by decide +kernel
  obtain ⟨document, hdocument, hagain⟩ := exists_ok_of_any hcheck
  obtain ⟨reread, hreread, hdiffers⟩ := exists_ok_of_any hagain
  refine ⟨document, hdocument, reread, hreread, ?_⟩
  intro hsame
  rw [(same_iff reread document).mpr hsame] at hdiffers
  cases hdiffers

end Document

end DiagramText
