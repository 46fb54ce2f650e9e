import DiagramText.Proofs.Grammar.Glue
import DiagramText.Proofs.Reprint.Bare
import DiagramText.Proofs.Reprint.Lines

/-!
# Documents that are printed are read again

The canonical source of a document that was read with its comments is read as the
same document up to spans (`Document.ofText_canonical`), so that formatting a
source twice is formatting it once.

The printer keeps the scopes to be printed on a stack.  What is read back from the
lines so far and what the stack still holds make up the document at every step
(`Canonical.filled`), as each line takes the scopes it is read in to those with one
more item, one more open block, or one less (`Canonical.Ready.taken`).
-/

namespace DiagramText

open Grammar Reader

/-! ## Lines of items -/

namespace Item

variable {item : Item} {maxDepth : Int} {depth : Nat}

/-- A comment that was read is a remark. -/
theorem Written.isRemark (h : item.Written maxDepth depth) (hcomment : item.isComment = true) :
    IsRemark item := by
  cases h with
  | comment comment => exact .of_isComment comment
  | importing | method | declaration | container => cases hcomment

/-- The line of a remark is its source. -/
theorem commentSource?_eq (h : IsRemark item) : item.commentSource? = some item.firstLine := by
  cases h <;> rfl

/-- What a block that was read is made of. -/
theorem Written.block {d : Declaration} {mark : BlockMark} {children : List Item}
    (h : Written maxDepth depth (.container d mark children)) :
    d.Written ∧ (d.hasColon = true ∧ d.imported = none ∧ mark.closed = true) ∧
      (depth + 1 : Nat) ≤ maxDepth ∧ ∀ item ∈ children, item.Written maxDepth (depth + 1) := by
  generalize hitem : Item.container d mark children = item at h
  cases h with
  | @comment _ token _ =>
      have hcomment := isComment_commentItem token
      rw [← hitem] at hcomment
      cases hcomment
  | importing | method | declaration => cases hitem
  | container written colon imported closed deep within =>
      cases hitem
      exact ⟨written, ⟨colon, imported, closed⟩, deep, within⟩

/-- What stands in a tidy block stands in a row that the closing brace ends. -/
theorem Tidy.row {d : Declaration} {mark : BlockMark} {children : List Item}
    (h : Tidy (.container d mark children)) : Row true children := by
  generalize hitem : Item.container d mark children = item at h
  cases h with
  | leaf leaf =>
      rw [← hitem] at leaf
      cases leaf
  | comment token =>
      have hcomment := isComment_commentItem token
      rw [← hitem] at hcomment
      cases hcomment
  | container within glued =>
      cases hitem
      exact ⟨within, glued⟩

/-- Only declarations without a block have to be followed by something. -/
theorem leaf_of_needsGlue (h : item.needsGlue = true) :
    item.isLeaf = true ∧ item.shownChildren = [] := by
  cases item with
  | declaration => exact ⟨rfl, rfl⟩
  | _ => cases h

end Item

namespace Grammar

variable {config : Config} {scopes : Scopes}

/-- A line leads to scopes up to spans. -/
theorem Takes.congr {line : Text} {before after after' : Scopes} (h : Takes config line before after)
    (hafter : after'.bare = after.bare) : Takes config line before after' := by
  intro r scopes hr hscopes
  obtain ⟨T, hcomes, hT⟩ := h r scopes hr hscopes
  exact ⟨T, hcomes, hT.trans hafter.symm⟩

/-- A block that is opened, filled and closed is the container that was printed. -/
theorem bare_pop_opened {d : Declaration} {mark : BlockMark} (children : List Item)
    (hcolon : d.hasColon = true) (himported : d.imported = none) (hclosed : mark.closed = true)
    (scopes : Scopes) :
    (((scopes.push (opened d)).add children).pop .nowhere).bare =
      (scopes.add [.container d mark children]).bare := by
  obtain ⟨target, hasColon, label, imported, span⟩ := d
  obtain ⟨closed, place⟩ := mark
  obtain rfl : hasColon = true := hcolon
  obtain rfl : imported = none := himported
  obtain rfl : closed = true := hclosed
  rw [Scopes.pop_add_push, Scopes.bare_add, Scopes.bare_add]
  simp [OpenBlock.item, opened, Item.bare, Declaration.bare, BlockMark.bare]

/-- The line of an item that nothing has to follow and no children follow adds the item. -/
theorem takes_plain (hkeep : config.keepComments = true) {item : Item}
    (h : item.Written config.maxDepth scopes.blocks.length) (hshown : item.shownChildren = [])
    (hfree : item.needsGlue = false) : Takes config item.firstLine scopes (scopes.add [item]) := by
  have hleaf : item.isLeaf = true → Takes config item.firstLine scopes (scopes.add [item]) := by
    intro hleaf
    have hline := takes_leaf hkeep h hleaf (.nil hfree) (Scopes.bare_add scopes [item])
    rwa [List.append_nil] at hline
  cases h with
  | comment comment =>
      have hremark := IsRemark.of_isComment comment
      exact takes_remark hkeep hremark (Item.commentSource?_eq hremark)
  | importing => exact hleaf rfl
  | method => exact hleaf rfl
  | declaration => exact hleaf rfl
  | @container _ d mark children written colon imported closed deep within =>
      have hshows : d.showsBlock = true := by simp [Declaration.showsBlock, imported, colon]
      obtain rfl : children = [] := by simpa [Item.shownChildren, hshows] using hshown
      have hsource : (Item.container d mark []).firstLine = d.openingSource ++ ['\x7d'] := by
        simp [Item.firstLine, hshows]
      rw [hsource]
      refine (takes_block_empty written deep).congr ?_
      have hbare := bare_pop_opened [] colon imported closed scopes
      rw [Scopes.add_nil] at hbare
      exact hbare.symm

end Grammar

/-! ## The lines of a document -/

namespace Canonical

variable {indent : Text} {item next : Item} {items : List Item} {level : Nat} {outer : List Scope}
  {lines : List Text}

/-- The line an item begins with at its level. -/
def lineAt (indent : Text) (level : Nat) (item : Item) : Text :=
  margin indent level ++ item.firstLine

theorem linesFrom_nil (indent : Text) (lines : List Text) : linesFrom indent [] false lines = lines := by
  rw [linesFrom]

/-- A scope without further items is closed by a line with its brace. -/
theorem linesFrom_done (hlevel : level ≠ 0) :
    linesFrom indent (([], level) :: outer) false lines =
      linesFrom indent outer false ((margin indent (level - 1) ++ ['\x7d']) :: lines) := by
  rw [linesFrom, if_neg hlevel]
  rfl

/-- The top needs no brace when its items are printed. -/
theorem linesFrom_top :
    linesFrom indent (([], 0) :: outer) false lines = linesFrom indent outer false lines := by
  rw [linesFrom, if_pos rfl]

/-- An item without a block has a line of its own. -/
theorem linesFrom_plain (hshown : item.shownChildren = []) (hfree : item.needsGlue = false) :
    linesFrom indent ((item :: items, level) :: outer) false lines =
      linesFrom indent ((items, level) :: outer) false (lineAt indent level item :: lines) := by
  rw [linesFrom.eq_def]
  simp [hshown, hfree, lineAt]

/-- An item with a block has a line of its own, and the items of the block go in front. -/
theorem linesFrom_block {children : List Item} (hshown : item.shownChildren = children)
    (hfilled : children ≠ []) :
    linesFrom indent ((item :: items, level) :: outer) false lines =
      linesFrom indent ((children, level + 1) :: (items, level) :: outer) false
        (lineAt indent level item :: lines) := by
  rw [linesFrom.eq_def]
  simp [hshown, hfilled, lineAt]

/-- A literal that needs it takes the comment behind it on its line. -/
theorem linesFrom_remark (hneeds : item.needsGlue = true) {x : Text}
    (hx : next.commentSource? = some x) :
    linesFrom indent ((item :: next :: items, level) :: outer) false lines =
      linesFrom indent ((items, level) :: outer) false ((lineAt indent level item ++ x) :: lines) := by
  rw [linesFrom]
  simp [(Item.leaf_of_needsGlue hneeds).2, hneeds, hx, lineAt, glueOnto]

/-- A literal that needs it and is the last of its block takes the closing brace on its line. -/
theorem linesFrom_last (hneeds : item.needsGlue = true) (hlevel : level ≠ 0) :
    linesFrom indent (([item], level) :: outer) false lines =
      linesFrom indent outer false ((lineAt indent level item ++ ['\x7d']) :: lines) := by
  rw [linesFrom]
  simp only [(Item.leaf_of_needsGlue hneeds).2, hneeds, ne_eq, not_true_eq_false, if_false, if_true]
  rw [linesFrom, if_neg hlevel]
  simp [closeBrace, glueOnto, lineAt]

/-- The scopes on the stack are at their levels, and hold rows of items that were read, in which the
last one may wait for a brace where one follows. -/
def Fits (maxDepth : Int) : List Scope → Prop
  | [] => True
  | (items, level) :: outer =>
    (level = outer.length ∧ (∀ item ∈ items, item.Written maxDepth level) ∧
      Row (decide (level ≠ 0)) items) ∧ Fits maxDepth outer

/-- The scopes once the rest of the stack is read: the items of each scope are added, and the block
they stand in is closed. -/
def filled : List Scope → Scopes → Scopes
  | [], scopes => scopes
  | (items, level) :: outer, scopes =>
    filled outer (if level = 0 then scopes.add items else (scopes.add items).pop .nowhere)

/-- The next item is added to its scope. -/
theorem filled_cons (item : Item) (items : List Item) (level : Nat) (outer : List Scope)
    (scopes : Scopes) :
    filled ((item :: items, level) :: outer) scopes =
      filled ((items, level) :: outer) (scopes.add [item]) := by
  simp only [filled, Scopes.add_add, List.singleton_append]

/-- Filling scopes does not depend on their spans. -/
theorem filled_congr {stack : List Scope} {scopes scopes' : Scopes} (h : scopes'.bare = scopes.bare) :
    (filled stack scopes').bare = (filled stack scopes).bare := by
  induction stack generalizing scopes scopes' with
  | nil => exact h
  | cons scope outer ih =>
      obtain ⟨items, level⟩ := scope
      have hadded : (scopes'.add items).bare = (scopes.add items).bare := by
        rw [Scopes.bare_add, Scopes.bare_add, h]
      refine ih ?_
      split
      · exact hadded
      · exact Scopes.bare_pop_congr hadded _ _

/-- The margin is blank. -/
theorem margin_all (hindent : indent.all isInlineBlank = true) (level : Nat) :
    (margin indent level).all isInlineBlank = true := by
  refine List.all_eq_true.mpr fun c hc => ?_
  obtain ⟨line, hline, hmem⟩ := List.mem_flatten.mp hc
  obtain rfl := List.eq_of_mem_replicate hline
  exact List.all_eq_true.mp hindent c hmem

end Canonical

/-- What is left of a row without its first item is a row. -/
theorem Grammar.Row.tail {loose : Bool} {item : Item} {items : List Item} (h : Row loose (item :: items)) :
    Row loose items := by
  refine ⟨fun later hlater => h.each later (List.mem_cons_of_mem _ hlater), ?_⟩
  cases items with
  | nil => trivial
  | cons next others => exact h.glued.2

namespace Canonical

variable {config : Config} {indent : Text} {stack outer : List Scope} {lines : List Text}
  {scopes : Scopes} {item next : Item} {items : List Item} {level : Nat}

/-- The printer with its stack and lines: the lines so far lead to the scopes in which the stack is
read. -/
structure Ready (config : Config) (stack : List Scope) (lines : List Text) (scopes : Scopes) : Prop where
  fits : Fits config.maxDepth stack
  depth : stack ≠ [] → scopes.blocks.length + 1 = stack.length
  lines : Taken config lines scopes

/-- The printer comes to a smaller stack, from which it prints the same lines, and the scopes are
filled to the same as before. -/
def Advances (config : Config) (indent : Text) (stack : List Scope) (lines : List Text)
    (scopes : Scopes) : Prop :=
  ∃ stack' lines' scopes', Ready config stack' lines' scopes' ∧ pending stack' < pending stack ∧
    linesFrom indent stack' false lines' = linesFrom indent stack false lines ∧
    (filled stack' scopes').bare = (filled stack scopes).bare

/-- A line that takes the scopes on continues the lines so far. -/
theorem Ready.line {line : Text} {after : Scopes} {stack' : List Scope}
    (h : Ready config stack lines scopes) (hindent : indent.all isInlineBlank = true) (level : Nat)
    (hline : Takes config line scopes after) (hfits : Fits config.maxDepth stack')
    (hdepth : stack' ≠ [] → after.blocks.length + 1 = stack'.length) :
    Ready config stack' ((margin indent level ++ line) :: lines) after :=
  ⟨hfits, hdepth, h.lines.line (hline.indent (margin_all hindent level))⟩

/-- At the top no line is needed to come to the end. -/
theorem advances_top (h : Ready config (([], 0) :: outer) lines scopes) :
    Advances config indent (([], 0) :: outer) lines scopes := by
  obtain ⟨⟨hlevel, _, _⟩, houter⟩ := h.fits
  obtain rfl := List.length_eq_zero_iff.mp hlevel.symm
  refine ⟨[], lines, scopes, ⟨houter, absurd rfl, h.lines⟩, ?_, linesFrom_top.symm, ?_⟩
  · simp only [pending]
    omega
  · simp [filled]

/-- A scope of which all items are printed is closed by a brace. -/
theorem advances_close (hindent : indent.all isInlineBlank = true) (hlevel : level ≠ 0)
    (h : Ready config (([], level) :: outer) lines scopes) :
    Advances config indent (([], level) :: outer) lines scopes := by
  obtain ⟨⟨hsame, _, _⟩, houter⟩ := h.fits
  have hdepth : scopes.blocks.length + 1 = outer.length + 1 := h.depth (by simp)
  obtain ⟨count, hcount⟩ : ∃ count, scopes.blocks.length = count + 1 := ⟨level - 1, by omega⟩
  have hopen : scopes.blocks ≠ [] := by
    intro hnone
    rw [hnone] at hcount
    cases hcount
  have hpop := Scopes.length_pop hcount .nowhere
  refine ⟨outer, _, _, h.line hindent (level - 1) (takes_brace hopen) houter fun _ => ?_, ?_,
    (linesFrom_done hlevel).symm, ?_⟩
  · omega
  · simp only [pending]
    omega
  · simp [filled, hlevel]

/-- An item on a line of its own is added. -/
theorem advances_plain (hkeep : config.keepComments = true) (hindent : indent.all isInlineBlank = true)
    (hshown : item.shownChildren = []) (hfree : item.needsGlue = false)
    (h : Ready config ((item :: items, level) :: outer) lines scopes) :
    Advances config indent ((item :: items, level) :: outer) lines scopes := by
  obtain ⟨⟨hlevel, hwritten, hrow⟩, houter⟩ := h.fits
  have hdepth : scopes.blocks.length + 1 = outer.length + 1 := h.depth (by simp)
  rw [List.forall_mem_cons] at hwritten
  have hblocks : level = scopes.blocks.length := by omega
  have hline := takes_plain hkeep (hblocks ▸ hwritten.1) hshown hfree
  refine ⟨(items, level) :: outer, _, _, h.line hindent level hline ⟨⟨hlevel, hwritten.2, hrow.tail⟩, houter⟩
    fun _ => ?_, ?_, (linesFrom_plain hshown hfree).symm, ?_⟩
  · rw [Scopes.length_blocks_add]
    exact hdepth
  · have := item.weight_pos
    simp only [pending, Item.weights]
    omega
  · rw [filled_cons]

/-- An item with children opens a block, in which they are printed. -/
theorem advances_block (hindent : indent.all isInlineBlank = true) {d : Declaration} {mark : BlockMark}
    {children : List Item} (hfilled : children ≠ [])
    (h : Ready config ((.container d mark children :: items, level) :: outer) lines scopes) :
    Advances config indent ((.container d mark children :: items, level) :: outer) lines scopes := by
  obtain ⟨⟨hlevel, hwritten, hrow⟩, houter⟩ := h.fits
  have hdepth : scopes.blocks.length + 1 = outer.length + 1 := h.depth (by simp)
  have hinner : Row (decide (level + 1 ≠ 0)) children := (hrow.each _ List.mem_cons_self).row
  rw [List.forall_mem_cons] at hwritten
  obtain ⟨hhead, ⟨hcolon, himported, hclosed⟩, hdeep, hwithin⟩ := hwritten.1.block
  have hblocks : level = scopes.blocks.length := by omega
  have hshows : d.showsBlock = true := by simp [Declaration.showsBlock, himported, hcolon]
  have hchildren : (Item.container d mark children).shownChildren = children := by
    simp [Item.shownChildren, hshows]
  have hsource : (Item.container d mark children).firstLine = d.openingSource := by
    simp [Item.firstLine, hshows, hfilled]
  have hline : Takes config (Item.container d mark children).firstLine scopes (scopes.push (opened d)) := by
    rw [hsource]
    exact takes_opening hhead (hblocks ▸ hdeep)
  have hfits : Fits config.maxDepth ((children, level + 1) :: (items, level) :: outer) :=
    ⟨⟨congrArg (· + 1) hlevel, hwithin, hinner⟩, ⟨hlevel, hwritten.2, hrow.tail⟩, houter⟩
  have hless : 1 + Item.weights children < (Item.container d mark children).weight := by
    have hweights : _ < (Item.container d mark children).weight :=
      Item.weights_shownChildren (by rwa [hchildren])
    rwa [hchildren] at hweights
  refine ⟨_, _, _, h.line hindent level hline hfits fun _ => ?_, ?_,
    (linesFrom_block hchildren hfilled).symm, ?_⟩
  · exact congrArg (· + 1) hdepth
  · simp only [pending, Item.weights]
    omega
  · rw [filled_cons, filled, if_neg (Nat.succ_ne_zero level)]
    exact filled_congr (bare_pop_opened children hcolon himported hclosed scopes)

/-- An item that has to be followed by something is the last of its block and followed by the closing
brace, or is followed by a comment. -/
theorem advances_glued (hkeep : config.keepComments = true) (hindent : indent.all isInlineBlank = true)
    (hneeds : item.needsGlue = true) (h : Ready config ((item :: items, level) :: outer) lines scopes) :
    Advances config indent ((item :: items, level) :: outer) lines scopes := by
  obtain ⟨⟨hlevel, hwritten, hrow⟩, houter⟩ := h.fits
  have hdepth : scopes.blocks.length + 1 = outer.length + 1 := h.depth (by simp)
  have hleaf := (Item.leaf_of_needsGlue hneeds).1
  have hpos := item.weight_pos
  rw [List.forall_mem_cons] at hwritten
  cases items with
  | nil =>
      have hclosed : level ≠ 0 := by simpa using hrow.glued hneeds
      have hopen : scopes.blocks ≠ [] := by
        intro hnone
        rw [hnone, List.length_nil] at hdepth
        omega
      have hline : Takes config (item.firstLine ++ ['\x7d']) scopes ((scopes.add [item]).pop .nowhere) :=
        takes_leaf_brace hwritten.1 hleaf hneeds hopen
      obtain ⟨count, hcount⟩ : ∃ count, (scopes.add [item]).blocks.length = count + 1 :=
        ⟨level - 1, by rw [Scopes.length_blocks_add]; omega⟩
      have hpop := Scopes.length_pop hcount .nowhere
      rw [Scopes.length_blocks_add] at hcount
      have hready := h.line hindent level hline houter fun _ => by omega
      rw [← List.append_assoc] at hready
      refine ⟨outer, _, _, hready, ?_, (linesFrom_last hneeds hclosed).symm, ?_⟩
      · simp only [pending, Item.weights]
        omega
      · rw [filled, if_neg hclosed]
  | cons next others =>
      have hnext := hwritten.2 next List.mem_cons_self
      have hremark := hnext.isRemark (hrow.glued.1 hneeds)
      have hsource := Item.commentSource?_eq hremark
      have hline : Takes config (item.firstLine ++ next.firstLine) scopes (scopes.add [item, next]) :=
        takes_leaf hkeep hwritten.1 hleaf (.remark hneeds hremark hsource) (Scopes.bare_add _ _)
      have hfits : Fits config.maxDepth ((others, level) :: outer) :=
        ⟨⟨hlevel, (List.forall_mem_cons.mp hwritten.2).2, hrow.tail.tail⟩, houter⟩
      have hready := h.line hindent level hline hfits fun _ => by
        rw [Scopes.length_blocks_add]
        exact hdepth
      rw [← List.append_assoc] at hready
      refine ⟨(others, level) :: outer, _, _, hready, ?_, (linesFrom_remark hneeds hsource).symm, ?_⟩
      · simp only [pending, Item.weights]
        omega
      · rw [filled_cons, filled_cons, Scopes.add_add]
        rfl

/-- As long as something is on the stack the printer advances. -/
theorem Ready.advances (hkeep : config.keepComments = true) (hindent : indent.all isInlineBlank = true)
    (h : Ready config stack lines scopes) (hstack : stack ≠ []) :
    Advances config indent stack lines scopes := by
  rcases stack with _ | ⟨⟨_ | ⟨item, items⟩, level⟩, outer⟩
  · exact absurd rfl hstack
  · by_cases hlevel : level = 0
    · subst hlevel
      exact advances_top h
    · exact advances_close hindent hlevel h
  · by_cases hneeds : item.needsGlue = true
    · exact advances_glued hkeep hindent hneeds h
    · by_cases hshown : item.shownChildren = []
      · exact advances_plain hkeep hindent hshown (Bool.eq_false_iff.mpr hneeds) h
      · cases item with
        | container d mark children =>
            refine advances_block hindent ?_ h
            rintro rfl
            simp [Item.shownChildren] at hshown
        | _ => exact absurd rfl hshown

/-- The lines that the printer comes to lead to what the stack fills the scopes to.  The induction is
on what there is to print. -/
theorem Ready.taken (hkeep : config.keepComments = true) (hindent : indent.all isInlineBlank = true)
    (h : Ready config stack lines scopes) :
    ∃ after, Taken config (linesFrom indent stack false lines) after ∧
      after.bare = (filled stack scopes).bare := by
  generalize hn : pending stack = n
  induction n using Nat.strongRecOn generalizing stack lines scopes with
  | ind n ih =>
      by_cases hstack : stack = []
      · subst hstack
        exact ⟨scopes, by rw [linesFrom_nil]; exact h.lines, rfl⟩
      · obtain ⟨stack', lines', scopes', hready, hless, hlines, hfilled⟩ :=
          h.advances hkeep hindent hstack
        obtain ⟨after, htaken, hafter⟩ := ih _ (hn ▸ hless) hready rfl
        exact ⟨after, hlines ▸ htaken, hafter.trans hfilled⟩

end Canonical

namespace Document

/-- The canonical source of what is read from a source. -/
def format (config : Config) (indent source : Text) : Except Failure Text :=
  (ofText config source).map (·.canonical indent)

variable {config : Config} {indent source : Text} {document : Document}

/-- The printer is ready to print what was read. -/
theorem ready_of_ofText (hkeep : config.keepComments = true)
    (h : ofText config source = .ok document) :
    Canonical.Ready config [(document.children, 0)] [] .empty :=
  ⟨⟨⟨rfl, written_of_ofText h, tidy_of_ofText hkeep h⟩, trivial⟩, fun _ => rfl, .nil⟩

/-- The canonical source of a document that the printer is ready to print is read as the same document
up to spans. -/
theorem reread_of_ready (hkeep : config.keepComments = true)
    (hindent : indent.all isInlineBlank = true)
    (h : Canonical.Ready config [(document.children, 0)] [] .empty) :
    ∃ reread, ofText config (document.canonical indent) = .ok reread ∧
      reread.bare = document.bare := by
  obtain ⟨after, htaken, hafter⟩ := h.taken hkeep hindent
  have hblocks : after.blocks.length = 0 := by
    rw [Scopes.length_blocks_of_bare hafter]
    exact Scopes.length_blocks_add .empty document.children
  have hend := outcome_nil config (List.length_eq_zero_iff.mp hblocks)
  have hread : outcome config ⟨.ofText (document.canonical indent), .empty⟩ = some after.bare := by
    have hlines := outcome_taken htaken [] (by simp [hend])
    rwa [List.append_nil, hend] at hlines
  have htop := outcome_ofText config (document.canonical indent)
  rw [hread, hafter] at htop
  obtain ⟨reread, hreread, hchildren⟩ := Option.map_eq_some_iff.mp htop.symm
  refine ⟨reread, except_toOption_eq_some.mp hreread, ?_⟩
  rw [bare, bare, hchildren, Item.bareAll_eq_map document.children]
  rfl

/-- The canonical source of what was read is read as the same document up to spans. -/
theorem reread_of_ofText (hkeep : config.keepComments = true)
    (hindent : indent.all isInlineBlank = true) (h : ofText config source = .ok document) :
    ∃ reread, ofText config (document.canonical indent) = .ok reread ∧
      reread.bare = document.bare :=
  reread_of_ready hkeep hindent (ready_of_ofText hkeep h)

/-- A source that is read with its comments has a canonical source, with any blanks for the indentation,
from which the same document is read up to spans; and to format that once more changes nothing. -/
theorem ofText_canonical (hkeep : config.keepComments = true)
    (hindent : indent.all isInlineBlank = true) (h : ofText config source = .ok document) :
    (∃ reread, ofText config (document.canonical indent) = .ok reread ∧
        reread.bare = document.bare) ∧
      ∃ text, format config indent source = .ok text ∧ format config indent text = .ok text := by
  obtain ⟨reread, hreread, hsame⟩ := reread_of_ofText hkeep hindent h
  have hformat : format config indent source = .ok (document.canonical indent) := by
    rw [format, h]
    rfl
  have hagain : format config indent (document.canonical indent) = .ok (document.canonical indent) := by
    rw [format, hreread, ← canonical_congr hsame indent]
    rfl
  exact ⟨⟨reread, hreread, hsame⟩, document.canonical indent, hformat, hagain⟩

/-- A text that would read as a number stands before a brace, and another before a comment. -/
theorem ofText_canonical_glued :
    ∃ document, ofText .default "a: \x7bb: 1\x7d; c: 2\x22\x22\x22 d \x22\x22\x22".toList = .ok document ∧
      (∃ reread, ofText .default (document.canonical [' ', '\t']) = .ok reread ∧
          reread.bare = document.bare) ∧
        ∃ text, format .default [' ', '\t'] "a: \x7bb: 1\x7d; c: 2\x22\x22\x22 d \x22\x22\x22".toList = .ok text ∧
          format .default [' ', '\t'] text = .ok text := by
  obtain ⟨document, hdocument⟩ := exists_ok_of_isOk
    (x := ofText .default "a: \x7bb: 1\x7d; c: 2\x22\x22\x22 d \x22\x22\x22".toList) (by decide +kernel)
  exact ⟨document, hdocument, ofText_canonical rfl (by decide) hdocument⟩

end Document

end DiagramText
