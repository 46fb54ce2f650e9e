import DiagramText.Proofs.Grammar.Opened
import DiagramText.Tree.Walk

/-!
# What holds of all items

The items of a document come from its source in three ways: a comment that is
kept becomes an item, a statement hands one over, and a block that is closed
becomes one with the items that it holds.  Whatever holds of comments and of
what statements hand over, and passes from the items of a block to the block,
holds of all items at the top of the document (`Document.forall_children`).

What holds of the items at the top and of all those in the blocks below them
(`Item.Each`) holds wherever a walk through the tree comes to a block or to a
label (`Document.walk_each`).
-/

namespace DiagramText

open Grammar Reader

variable {source : Text} {config : Config} {P : Item → Prop}

/-! ## Items and the statements they come from -/

namespace Grammar

/-- All items in the scopes, at the top and in the open blocks. -/
def Scopes.All (P : Item → Prop) (scopes : Scopes) : Prop :=
  (∀ item ∈ scopes.top, P item) ∧ ∀ block ∈ scopes.blocks, ∀ item ∈ block.children, P item

namespace Scopes.All

variable {scopes : Scopes}

/-- Adding items of which it holds keeps it. -/
theorem add (h : scopes.All P) {items : List Item} (hitems : ∀ item ∈ items, P item) :
    (scopes.add items).All P := by
  obtain ⟨top, _ | ⟨block, outer⟩⟩ := scopes
  · exact ⟨List.forall_mem_append.mpr ⟨h.1, hitems⟩, h.2⟩
  · obtain ⟨hblock, houter⟩ := List.forall_mem_cons.mp h.2
    exact ⟨h.1, List.forall_mem_cons.mpr ⟨List.forall_mem_append.mpr ⟨hblock, hitems⟩, houter⟩⟩

/-- Opening a block keeps it. -/
theorem push (h : scopes.All P) (target : Target) (label : Option Label) (brace : Token) :
    (scopes.push ⟨brace, target, label, []⟩).All P :=
  ⟨h.1, List.forall_mem_cons.mpr ⟨by simp, h.2⟩⟩

/-- Closing a block keeps it, if it passes from the items of the block to the block. -/
theorem pop (h : scopes.All P) (closing : Span)
    (hblock : ∀ block ∈ scopes.blocks, (∀ item ∈ block.children, P item) →
      P (block.item ⟨true, block.brace.span.cover closing⟩ [])) : (scopes.pop closing).All P := by
  obtain ⟨top, _ | ⟨block, outer⟩⟩ := scopes
  · exact h
  · obtain ⟨hchildren, houter⟩ := List.forall_mem_cons.mp h.2
    have hrest : Scopes.All P ⟨top, outer⟩ := ⟨h.1, houter⟩
    have hclosed := hblock block List.mem_cons_self hchildren
    exact hrest.add (List.forall_mem_singleton.mpr hclosed)

end Scopes.All

end Grammar

/-- What holds of comments and of the items that the statements of a source hand over, and passes from
the items of a block that such a statement opens to the block, holds of the items of the document. -/
theorem Document.forall_children (hcomment : ∀ token, P (commentItem token))
    (hitem : ∀ item, Statement.ReadFrom source (.item item) → P item)
    (hblock : ∀ (block : OpenBlock) (mark : BlockMark), block.Opened source →
      (∀ item ∈ block.children, P item) → P (block.item mark []))
    {document : Document} (h : ofText config source = .ok document) :
    ∀ item ∈ document.children, P item := by
  obtain ⟨T, hcomes, hscopes⟩ := comes_of_ofText h
  have hcomments : ∀ comments, ∀ item ∈ commentItems config comments, P item := by
    intro comments item hmem
    obtain ⟨comment, _, rfl⟩ := mem_commentItems hmem
    exact hcomment comment
  have hkept : T.Standing source ∧ T.scopes.All P := by
    refine hcomes.keeps (P := fun S => S.Standing source ∧ S.scopes.All P) ?_ ?_
      ⟨.ofText source, by simp [Scopes.empty], by simp [Scopes.empty]⟩
    · intro S token r _ hpeek hS
      exact ⟨hS.1.settled hpeek, hS.2.add (hcomments _)⟩
    · intro S token again S' hsettled hacts hS
      refine ⟨hS.1.acts hsettled hacts, ?_⟩
      have hplaced := hS.1.laid.logs.placed
      cases hacts with
      | terminator => exact hS.2
      | stop => exact hS.2
      | close => exact hS.2.pop _ fun block hmem => hblock block _ (hS.1.opened block hmem)
      | item _ read =>
          have hread := hitem _ ⟨S.reader, _, ⟨hsettled.sound, hplaced⟩, read⟩
          exact hS.2.add (List.forall_mem_singleton.mpr hread)
      | opening => exact hS.2.push _ _ _
  rw [hscopes] at hkept
  exact hkept.2.1

/-! ## Items in blocks -/

/-- The items in the block of an item; one without a block holds none. -/
def Item.within : Item → List Item
  | .container _ _ children => children
  | _ => []

/-- An item without a block holds no items. -/
theorem Item.within_of_isLeaf {item : Item} (h : item.isLeaf = true) : item.within = [] := by
  obtain ⟨_, rfl⟩ | ⟨_, rfl⟩ | ⟨_, rfl⟩ := cases_of_isLeaf h <;> rfl

/-- A comment holds no items. -/
theorem Item.within_commentItem (token : Token) : (commentItem token).within = [] := by
  unfold commentItem
  split <;> rfl

/-- A comment has no label. -/
theorem Item.label?_commentItem (token : Token) : (commentItem token).label? = none := by
  unfold commentItem
  split <;> rfl

/-- A block holds the items that were read in it. -/
theorem Grammar.OpenBlock.within_item (block : OpenBlock) (mark : BlockMark) :
    (block.item mark []).within = block.children :=
  List.append_nil _

/-- The condition holds of the item and of all items in blocks below it. -/
inductive Item.Each (P : Item → Prop) : Item → Prop
  | intro {item : Item} (holds : P item) (inside : ∀ child ∈ item.within, Each P child) : Each P item

namespace Item.Each

variable {item : Item}

/-- Where there is no block nothing is below. -/
theorem of_within (h : item.within = []) (holds : P item) : item.Each P :=
  .intro holds (by simp [h])

theorem holds (h : item.Each P) : P item := by
  cases h
  assumption

/-- It holds of all items in the block, and below them. -/
theorem inside (h : item.Each P) : ∀ child ∈ item.within, child.Each P := by
  cases h
  assumption

end Item.Each

namespace Node

/-- The condition holds of all items in the node.  A block and a label are parts of such an item. -/
def Each (P : Item → Prop) : Node → Prop
  | .document d => ∀ child ∈ d.children, child.Each P
  | .item i => i.Each P
  | .block mark items => ∃ declaration, (Item.container declaration mark items).Each P
  | .label l => ∃ item, P item ∧ item.label? = some l
  | _ => True

/-- A node that is no item and holds none has nothing to say. -/
theorem each_of_isPhrase {node : Node} (h : node.isPhrase = true) : node.Each P := by
  cases node with
  | document | item | block | label => cases h
  | _ => trivial

/-- An import may be a part of a declaration, too. -/
theorem Each.children (himport : ∀ imported, P (.importing imported)) {node : Node}
    (h : node.Each P) : ∀ part ∈ node.children, part.Each P := by
  refine forall_children (fun part => each_of_isPhrase) ?_ ?_ ?_ ?_ ?_
  · exact fun imported => .of_within rfl (himport imported)
  · rintro item l rfl hl
    exact ⟨item, Item.Each.holds h, hl⟩
  · rintro d mark items rfl
    exact ⟨d, h⟩
  · rintro d rfl
    exact h
  · rintro mark items rfl
    obtain ⟨declaration, hitem⟩ := h
    exact hitem.inside

end Node

/-- A block that a walk comes to is that of an item of which the condition holds, and so is a label. -/
theorem Document.walk_each (himport : ∀ imported, P (.importing imported)) {document : Document}
    (h : ∀ child ∈ document.children, child.Each P) :
    (∀ mark items, .block mark items ∈ (Node.document document).walk →
        ∃ declaration, P (.container declaration mark items)) ∧
      ∀ label, .label label ∈ (Node.document document).walk →
        ∃ item, P item ∧ item.label? = some label := by
  have hdocument : (Node.document document).Each P := h
  have hwalk := Node.forall_walk (fun _ => Node.Each.children himport) hdocument
  refine ⟨fun mark items hblock => ?_, fun _ hlabel => hwalk _ hlabel⟩
  obtain ⟨declaration, hitem⟩ := hwalk _ hblock
  exact ⟨declaration, hitem.holds⟩

end DiagramText
