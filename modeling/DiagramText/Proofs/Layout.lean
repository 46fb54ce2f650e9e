import DiagramText.Proofs.Reprint

/-!
# The layout of a document

The printer goes through a document with the scopes still to be printed on a
stack, and with one flag for all of them, whether the newest line has to be
continued.  Here is the same layout by recursion on the tree.  The lines of a
scope are those of its items, one after another (`Item.linesAll`); the lines of a
block stand one level deeper between the line that opens it and the brace that
closes it (`Item.lines`).  A label text such as `1` is continued by the comment
after it, and at the end of a block by the brace.

Both write the same text (`Document.canonical_eq_nested`): while a scope is on
top of the stack the printer adds the lines of its items, and then the flag says
whether the last item has to be continued, whatever is below on the stack
(`Canonical.Prints`).
-/

namespace DiagramText

open Canonical

namespace Canonical

/-- Adds to the end of the last line. -/
def continueLast (text : Text) (lines : List Text) : List Text :=
  lines.dropLast ++ [lines.getLast?.getD [] ++ text]

/-- The lines of a block and the brace that closes it, which continues the last line if the last item
has to be continued, and has a line of its own otherwise. -/
def closeLines (indent : Text) (level : Nat) (items : List Item) (lines : List Text) : List Text :=
  if items.getLast?.any (·.needsGlue) then continueLast ['\x7d'] lines
  else lines ++ [margin indent level ++ ['\x7d']]

end Canonical

mutual

/-- The lines of an item at a level: one line, and between this and a closing brace those of the block
that it shows. -/
def Item.lines (indent : Text) (level : Nat) : Item → List Text
  | .container d mark children =>
    if d.showsBlock && !children.isEmpty then
      (margin indent level ++ d.openingSource) ::
        closeLines indent level children (Item.linesAll indent (level + 1) children)
    else [margin indent level ++ (Item.container d mark children).firstLine]
  | item => [margin indent level ++ item.firstLine]

/-- The lines of the items of a scope.  A comment that follows an item which has to be continued is on
the line of the item. -/
def Item.linesAll (indent : Text) (level : Nat) : List Item → List Text
  | [] => []
  | [item] => item.lines indent level
  | item :: next :: others =>
    match item.needsGlue, next.commentSource? with
    | true, some remark =>
      (margin indent level ++ item.firstLine ++ remark) :: Item.linesAll indent level others
    | _, _ => item.lines indent level ++ Item.linesAll indent level (next :: others)

end

/-- The canonical source of a document, written by recursion on its items. -/
def Document.nestedCanonical (indent : Text) (document : Document) : Text :=
  (Item.linesAll indent 0 document.children).flatMap (· ++ ['\n'])

/-! ## The lines of items -/

namespace Item

variable {indent : Text} {level : Nat} {item next : Item} {items others : List Item}

/-- An item that shows no block has one line. -/
theorem lines_plain (h : item.shownChildren = []) :
    item.lines indent level = [lineAt indent level item] := by
  cases item with
  | container d mark children =>
      have hnone : (d.showsBlock && !children.isEmpty) = false := by
        rw [shownChildren] at h
        split at h <;> simp_all
      simp [lines, hnone, lineAt]
  | _ => rfl

/-- An item that shows a block has the lines of the block between two of its own. -/
theorem lines_block {d : Declaration} {mark : BlockMark} {children : List Item}
    (h : (container d mark children).shownChildren ≠ []) :
    (container d mark children).shownChildren = children ∧
      (container d mark children).lines indent level =
        lineAt indent level (container d mark children) ::
          closeLines indent level children (linesAll indent (level + 1) children) := by
  cases hshows : d.showsBlock with
  | false => simp [shownChildren, hshows] at h
  | true =>
      have hsome : children ≠ [] := by simpa [shownChildren, hshows] using h
      simp [shownChildren, lines, lineAt, firstLine, hshows, hsome]

/-- Where nothing has to continue the first item its lines come first. -/
theorem linesAll_cons (h : item.needsGlue = false) :
    linesAll indent level (item :: items) =
      item.lines indent level ++ linesAll indent level items := by
  cases items with
  | nil => simp [linesAll]
  | cons next others => simp [linesAll, h]

/-- Whatever the items are, they have lines. -/
theorem linesAll_ne_nil (h : items ≠ []) : linesAll indent level items ≠ [] := by
  have hline : ∀ item : Item, item.lines indent level ≠ [] := by
    intro item
    by_cases hshown : item.shownChildren = []
    · rw [lines_plain hshown]
      exact List.cons_ne_nil _ _
    · cases item with
      | container d mark children =>
          rw [(lines_block hshown).2]
          exact List.cons_ne_nil _ _
      | _ => exact absurd rfl hshown
  cases items with
  | nil => exact absurd rfl h
  | cons item others =>
      cases others with
      | nil => exact hline item
      | cons next others =>
          rw [linesAll]
          split
          · exact List.cons_ne_nil _ _
          · exact List.append_ne_nil_of_left_ne_nil (hline item) _

end Item

namespace Canonical

variable {indent : Text} {level : Nat} {item next : Item} {items : List Item} {outer : List Scope}
  {lines older : List Text}

/-- The last line is the newest one. -/
theorem reverse_continueLast (text : Text) (h : lines ≠ []) :
    (continueLast text lines).reverse ++ older = glueOnto text (lines.reverse ++ older) := by
  obtain rfl | ⟨before, last, rfl⟩ := List.eq_nil_or_concat lines
  · exact absurd rfl h
  · simp [continueLast, glueOnto]

/-- The brace is where the flag tells the printer to put it. -/
theorem reverse_closeLines (h : lines ≠ []) :
    (closeLines indent level items lines).reverse ++ older =
      closeBrace indent level (items.getLast?.any (·.needsGlue)) (lines.reverse ++ older) := by
  unfold closeLines closeBrace
  split
  · exact reverse_continueLast _ h
  · simp

/-- The flag does not matter to an item that is still to be printed. -/
theorem linesFrom_cons (glue : Bool) :
    linesFrom indent ((item :: items, level) :: outer) glue lines =
      linesFrom indent ((item :: items, level) :: outer) false lines := by
  rw [linesFrom.eq_def, linesFrom.eq_def _ _ false]

/-- An item that is not followed by a comment leaves the flag up when it has to be continued. -/
theorem linesFrom_waiting (hneeds : item.needsGlue = true)
    (hnone : ∀ next, items.head? = some next → next.commentSource? = none) :
    linesFrom indent ((item :: items, level) :: outer) false lines =
      linesFrom indent ((items, level) :: outer) true (lineAt indent level item :: lines) := by
  rw [linesFrom.eq_def]
  simp only [(Item.leaf_of_needsGlue hneeds).2, hneeds, ne_eq, not_true_eq_false, if_false, if_true]
  cases items with
  | nil => rfl
  | cons next others =>
      simp only [hnone next rfl]
      rfl

/-- A block on top of the stack is printed up to its brace. -/
theorem linesFrom_closed (glue : Bool) :
    linesFrom indent (([], level + 1) :: outer) glue lines =
      linesFrom indent outer false (closeBrace indent level glue lines) := by
  rw [linesFrom, if_neg (Nat.succ_ne_zero level), Nat.add_sub_cancel]

/-- Whether the last item has to be continued does not depend on one that has not. -/
theorem getLast?_any_cons (h : item.needsGlue = false) :
    (item :: items).getLast?.any (·.needsGlue) = items.getLast?.any (·.needsGlue) := by
  cases items with
  | nil => exact h
  | cons next others => rw [List.getLast?_cons_cons]

/-- The printer adds the lines of the items while they are on top of its stack, and then the flag says
whether the last of them has to be continued. -/
def Prints (indent : Text) (items : List Item) : Prop :=
  ∀ level outer lines,
    linesFrom indent ((items, level) :: outer) false lines =
      linesFrom indent (([], level) :: outer) (items.getLast?.any (·.needsGlue))
        ((Item.linesAll indent level items).reverse ++ lines)

/-- An item that nothing has to continue adds its own lines: those of its block are added while the
block is on top of the stack, and its brace when the block is done. -/
theorem linesFrom_item (hfree : item.needsGlue = false) (hinside : Prints indent item.shownChildren) :
    linesFrom indent ((item :: items, level) :: outer) false lines =
      linesFrom indent ((items, level) :: outer) false
        ((item.lines indent level).reverse ++ lines) := by
  by_cases hshown : item.shownChildren = []
  · rw [linesFrom_plain hshown hfree, Item.lines_plain hshown]
    rfl
  · cases item with
    | container d mark children =>
        obtain ⟨hchildren, hlines⟩ :
            _ ∧ (Item.container d mark children).lines indent level = _ := Item.lines_block hshown
        rw [linesFrom_block rfl hshown, hinside, linesFrom_closed, hchildren,
          ← reverse_closeLines (Item.linesAll_ne_nil (hchildren ▸ hshown)), hlines]
        simp
    | _ => exact absurd rfl hshown

namespace Prints

theorem cons_free (hfree : item.needsGlue = false) (hinside : Prints indent item.shownChildren)
    (h : Prints indent items) : Prints indent (item :: items) := by
  intro level outer lines
  rw [linesFrom_item hfree hinside, h, Item.linesAll_cons hfree, getLast?_any_cons hfree]
  simp

/-- The comment after an item that has to be continued is on the line of the item. -/
theorem cons_remark (hneeds : item.needsGlue = true) {remark : Text}
    (hremark : next.commentSource? = some remark) (h : Prints indent items) :
    Prints indent (item :: next :: items) := by
  intro level outer lines
  have hfree : next.needsGlue = false := by cases next <;> first | rfl | cases hremark
  rw [linesFrom_remark hneeds hremark, h, List.getLast?_cons_cons, getLast?_any_cons hfree]
  simp [Item.linesAll, hneeds, hremark, lineAt]

/-- Any other item after one that has to be continued takes the flag down again. -/
theorem cons_waiting (hneeds : item.needsGlue = true) (hnone : next.commentSource? = none)
    (h : Prints indent (next :: items)) : Prints indent (item :: next :: items) := by
  intro level outer lines
  rw [linesFrom_waiting hneeds (by simpa using hnone), linesFrom_cons, h, List.getLast?_cons_cons]
  simp [Item.linesAll, hneeds, hnone, Item.lines_plain (Item.leaf_of_needsGlue hneeds).2]

theorem last (hneeds : item.needsGlue = true) : Prints indent [item] := by
  intro level outer lines
  rw [linesFrom_waiting hneeds (by simp), Item.linesAll,
    Item.lines_plain (Item.leaf_of_needsGlue hneeds).2]
  simp [hneeds]

end Prints

/-- Whatever the items are, the printer adds their lines.  The induction is on how much there is to
print: the items after the first, and those of its block, are less. -/
theorem prints (indent : Text) (items : List Item) : Prints indent items := by
  generalize hn : Item.weights items = n
  induction n using Nat.strongRecOn generalizing items with
  | ind n ih =>
    cases items with
    | nil => exact fun _ _ _ => rfl
    | cons item others =>
      rw [Item.weights] at hn
      have hpos := item.weight_pos
      have hothers := ih _ (by omega) others rfl
      cases hneeds : item.needsGlue with
      | false =>
          refine .cons_free hneeds ?_ hothers
          by_cases hshown : item.shownChildren = []
          · rw [hshown]
            exact fun _ _ _ => rfl
          · have hless := Item.weights_shownChildren hshown
            exact ih _ (by omega) _ rfl
      | true =>
          cases others with
          | nil => exact .last hneeds
          | cons next later =>
              rw [Item.weights] at hn
              cases hnext : next.commentSource? with
              | none => exact .cons_waiting hneeds hnext hothers
              | some remark => exact .cons_remark hneeds hnext (ih _ (by omega) later rfl)

end Canonical

namespace Document

/-- The canonical source of a document is its source by recursion on its items. -/
theorem canonical_eq_nested (indent : Text) (document : Document) :
    document.canonical indent = document.nestedCanonical indent := by
  have htop : ∀ glue lines, linesFrom indent [([], 0)] glue lines = lines := by
    intro glue lines
    rw [linesFrom, if_pos rfl, linesFrom_nil]
  rw [canonical, nestedCanonical, prints, htop, List.append_nil, List.reverse_reverse]

end Document

end DiagramText
