import DiagramText.Grammar.Statement

/-!
# Scopes

The items read so far stand in scopes: the document, and one in another the blocks that wait for
their closing brace. `Scopes.add` puts an item into the innermost scope; `Scopes.push` opens a
block in it and `Scopes.pop` closes that block, which makes it an item of the scope around it.
`Scopes.unfinished` is the tree of all that was read when the blocks still open stay open.
-/

namespace DiagramText.Grammar

/-- A block that waits for its closing brace, with the items it has so far. -/
structure OpenBlock where
  brace : Token
  target : Target
  label : Option Label
  children : List Item

/-- The declaration of a block with the given mark, which holds its items and the further ones. -/
def OpenBlock.item (block : OpenBlock) (mark : BlockMark) (further : List Item) : Item :=
  .container
    ⟨block.target, true, block.label, none, block.target.span.cover mark.span⟩
    mark (block.children ++ further)

/-- The items at the top and the open blocks, the innermost first. -/
structure Scopes where
  top : List Item
  blocks : List OpenBlock

namespace Scopes

/-- Nothing was read. -/
def empty : Scopes := ⟨[], []⟩

/-- Adds items to the innermost scope. -/
def add (items : List Item) : Scopes → Scopes
  | ⟨top, []⟩ => ⟨top ++ items, []⟩
  | ⟨top, block :: outer⟩ => ⟨top, { block with children := block.children ++ items } :: outer⟩

/-- Opens a block in the innermost scope. -/
def push (block : OpenBlock) (scopes : Scopes) : Scopes :=
  { scopes with blocks := block :: scopes.blocks }

/-- Closes the innermost block with a brace. -/
def pop (closing : Span) : Scopes → Scopes
  | ⟨top, []⟩ => ⟨top, []⟩
  | ⟨top, block :: outer⟩ =>
    add [block.item ⟨true, block.brace.span.cover closing⟩ []] ⟨top, outer⟩

/-- The items at the top when the open blocks stay without their closing braces. -/
def unfinished (scopes : Scopes) : List Item :=
  scopes.top ++
    scopes.blocks.foldl (fun inner block => [block.item ⟨false, block.brace.span⟩ inner]) []

end Scopes

end DiagramText.Grammar
