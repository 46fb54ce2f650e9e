import DiagramText.Proofs.Grammar.Turns

/-!
# Leaving comments out

Whether comments are kept does not matter to the rest of a source.  Without
them a source gives the tree that it gives with them, the comments removed at
every level, and where it fails it fails with the same error at the same place
(`Document.ofText_withoutComments`).

The two readings take the same turns: the readers are the same throughout, and
the scopes of the one are those of the other without their comments
(`turn_shadows`).
-/

namespace DiagramText

open Grammar Reader

mutual

/-- The item without the comments inside it. -/
def Item.withoutComments : Item → Item
  | .container head mark children => .container head mark (Item.dropComments children)
  | item => item

/-- The items that are no comments, without the comments inside them. -/
def Item.dropComments : List Item → List Item
  | [] => []
  | item :: others =>
    if item.isComment then Item.dropComments others
    else item.withoutComments :: Item.dropComments others

end

/-- The document without its comments. -/
def Document.withoutComments (document : Document) : Document :=
  { document with children := Item.dropComments document.children }

/-- The same failure, with what was completed but for its comments. -/
def Failure.withoutComments : Failure → Failure
  | .malformed error completed => .malformed error completed.withoutComments
  | failure => failure

namespace Item

@[simp] theorem dropComments_append (items others : List Item) :
    dropComments (items ++ others) = dropComments items ++ dropComments others := by
  induction items with
  | nil => rfl
  | cons item items ih =>
      simp only [List.cons_append, dropComments, ih]
      split <;> rfl

/-- Nothing is left of comments. -/
theorem dropComments_of_isComment {items : List Item} (h : ∀ item ∈ items, item.isComment = true) :
    dropComments items = [] := by
  induction items with
  | nil => rfl
  | cons item items ih =>
      rw [List.forall_mem_cons] at h
      rw [dropComments, if_pos h.1, ih h.2]

/-- A leaf stays as it is. -/
theorem dropComments_leaf {item : Item} (h : item.isLeaf = true) : dropComments [item] = [item] := by
  obtain ⟨_, rfl⟩ | ⟨_, rfl⟩ | ⟨_, rfl⟩ := cases_of_isLeaf h <;> rfl

end Item

namespace Grammar

/-- The open block without the comments it holds. -/
def OpenBlock.withoutComments (block : OpenBlock) : OpenBlock :=
  { block with children := Item.dropComments block.children }

/-- A block is closed, or left open, with the comments in it or without. -/
theorem OpenBlock.dropComments_item (block : OpenBlock) (mark : BlockMark) (further : List Item) :
    Item.dropComments [block.item mark further] =
      [block.withoutComments.item mark (Item.dropComments further)] := by
  simp [OpenBlock.item, OpenBlock.withoutComments, Item.dropComments, Item.withoutComments,
    Item.isComment]

namespace Scopes

/-- The scopes without the comments they hold. -/
def withoutComments (scopes : Scopes) : Scopes :=
  ⟨Item.dropComments scopes.top, scopes.blocks.map (·.withoutComments)⟩

/-- What is left of items that are added is added to what is left of the scopes. -/
theorem withoutComments_add (scopes : Scopes) (items : List Item) :
    (scopes.add items).withoutComments = scopes.withoutComments.add (Item.dropComments items) := by
  obtain ⟨top, blocks⟩ := scopes
  cases blocks <;> simp [add, withoutComments, OpenBlock.withoutComments]

theorem withoutComments_push (scopes : Scopes) {block : OpenBlock} (h : block.children = []) :
    (scopes.push block).withoutComments = scopes.withoutComments.push block := by
  have hblock : block.withoutComments = block := by
    rw [OpenBlock.withoutComments, h, Item.dropComments, ← h]
  simp [push, withoutComments, hblock]

/-- Closing a block and leaving comments out may be done in either order. -/
theorem withoutComments_pop (scopes : Scopes) (closing : Span) :
    (scopes.pop closing).withoutComments = scopes.withoutComments.pop closing := by
  obtain ⟨top, blocks⟩ := scopes
  cases blocks with
  | nil => rfl
  | cons block outer =>
      rw [pop, withoutComments_add, OpenBlock.dropComments_item]
      rfl

/-- The tree of unfinished scopes without comments is that of the scopes without comments. -/
theorem dropComments_unfinished (scopes : Scopes) :
    Item.dropComments scopes.unfinished = scopes.withoutComments.unfinished := by
  obtain ⟨top, blocks⟩ := scopes
  have hfold : ∀ (blocks : List OpenBlock) (inner : List Item),
      Item.dropComments (blocks.foldl
        (fun inner block => [block.item ⟨false, block.brace.span⟩ inner]) inner) =
        (blocks.map (·.withoutComments)).foldl
          (fun inner block => [block.item ⟨false, block.brace.span⟩ inner])
          (Item.dropComments inner) := by
    intro blocks
    induction blocks with
    | nil =>
        intro inner
        rfl
    | cons block blocks ih =>
        intro inner
        rw [List.foldl_cons, ih, OpenBlock.dropComments_item]
        rfl
  simp only [unfinished, withoutComments, Item.dropComments_append]
  exact congrArg _ (hfold blocks [])

end Scopes

/-- The session without the comments that were placed. -/
def Session.withoutComments (S : Session) : Session :=
  ⟨S.reader, S.scopes.withoutComments⟩

/-- The items of kept comments leave nothing without comments. -/
theorem dropComments_commentItems (config : Config) (comments : List Token) :
    Item.dropComments (commentItems config comments) = [] := by
  refine Item.dropComments_of_isComment fun item hitem => ?_
  obtain ⟨comment, _, rfl⟩ := mem_commentItems hitem
  exact Item.isComment_commentItem comment

variable {S : Session}

/-- Reading on does not depend on the scopes. -/
theorem parsing_shadows {α : Type} (p : Parser α) (S : Session) :
    Shadows Session.withoutComments (parsing p) (parsing p) S := by
  unfold Shadows parsing
  cases hp : p S.reader <;> simp [Session.withoutComments, hp, viewed]

/-- A change of the scopes may be made before comments are left out or after. -/
theorem scoping_shadows {change change' : Scopes → Scopes}
    (h : (change S.scopes).withoutComments = change' S.scopes.withoutComments) :
    Shadows Session.withoutComments (scoping change) (scoping change') S := by
  change EStateM.Result.ok () (Session.mk S.reader (change' S.scopes.withoutComments)) = _
  rw [← h]
  rfl

variable {maxDepth : Int}

/-- Placing comments leaves no trace once comments are removed. -/
theorem placeComments_shadows (S : Session) :
    Shadows Session.withoutComments (placeComments ⟨maxDepth, true⟩)
      (placeComments ⟨maxDepth, false⟩) S := by
  refine (parsing_shadows _ S).bind fun comments T _ => scoping_shadows ?_
  rw [Scopes.withoutComments_add, dropComments_commentItems]
  rfl

/-- A block is opened whether comments are kept or not. -/
theorem openBlock_shadows {block : OpenBlock} (h : block.children = []) (S : Session) :
    Shadows Session.withoutComments (openBlock ⟨maxDepth, true⟩ block)
      (openBlock ⟨maxDepth, false⟩ block) S := by
  unfold Shadows
  rw [openBlock_eq, openBlock_eq]
  have hlength : S.withoutComments.scopes.blocks.length = S.scopes.blocks.length :=
    List.length_map _
  rw [hlength]
  split
  · rfl
  · simp only [viewed, Session.withoutComments, Scopes.withoutComments_push _ h]

/-- What a statement read is placed whether comments are kept or not. -/
theorem place_shadows {read : Statement} (h : read.IsLeaf) (S : Session) :
    Shadows Session.withoutComments (place ⟨maxDepth, true⟩ read) (place ⟨maxDepth, false⟩ read) S := by
  cases read with
  | item item =>
      refine Shadows.bind (scoping_shadows ?_) fun _ T _ => shadows_pure true T
      rw [Scopes.withoutComments_add, Item.dropComments_leaf (h item rfl)]
  | opening target label brace =>
      exact (openBlock_shadows rfl S).bind fun _ T _ => shadows_pure true T

/-- A block is closed whether comments are kept or not. -/
theorem closeBlock_shadows (S : Session) :
    Shadows Session.withoutComments closeBlock closeBlock S := by
  refine (parsing_shadows _ S).bind fun closing T _ => ?_
  refine (scoping_shadows (Scopes.withoutComments_pop _ _)).bind fun _ U _ => ?_
  exact parsing_shadows _ U

/-- A turn acts in the same way whether comments are kept or not. -/
theorem act_shadows (token : Token) (S : Session) :
    Shadows Session.withoutComments (act ⟨maxDepth, true⟩ token) (act ⟨maxDepth, false⟩ token) S := by
  have hblocks : S.withoutComments.scopes.blocks = S.scopes.blocks.map (·.withoutComments) := rfl
  by_cases hterminator : token.kind = .terminator
  · unfold act
    simp only [if_pos hterminator]
    exact (parsing_shadows _ S).bind fun _ T _ => shadows_pure true T
  by_cases heof : token.kind = .eof
  · unfold Shadows
    rw [act_eof heof, act_eof heof, hblocks]
    cases S.scopes.blocks <;> rfl
  by_cases hbrace : token.isPunct '\x7d' = true
  · unfold Shadows
    rw [act_brace hbrace, act_brace hbrace, hblocks]
    cases S.scopes.blocks with
    | nil => rfl
    | cons => exact (closeBlock_shadows S).bind fun _ T _ => shadows_pure true T
  · unfold Shadows
    rw [act_statement hterminator heof hbrace, act_statement hterminator heof hbrace]
    exact (parsing_shadows statement S).bind fun read T hread =>
      place_shadows (parsing_statement_leaf hread) T

/-- A turn is the same whether comments are kept or not, but for the comments it places. -/
theorem turn_shadows (S : Session) :
    Shadows Session.withoutComments (turn ⟨maxDepth, true⟩) (turn ⟨maxDepth, false⟩) S := by
  rw [turn_eq, turn_eq]
  refine (parsing_shadows _ S).bind fun token T _ => ?_
  exact (placeComments_shadows T).bind fun _ U _ => act_shadows token U

/-- So do all turns.  The induction is on how many there may be. -/
theorem turnsUpTo_shadows (limit : Nat) (S : Session) :
    Shadows Session.withoutComments (turnsUpTo ⟨maxDepth, true⟩ limit)
      (turnsUpTo ⟨maxDepth, false⟩ limit) S := by
  induction limit generalizing S with
  | zero => exact shadows_throw _ S
  | succ limit ih =>
      refine (turn_shadows S).bind fun again T _ => ?_
      exact shadows_ite (fun _ => ih T) fun _ => shadows_pure () T

end Grammar

namespace Document

/-- Reading a source without keeping comments gives what reading it with them gives, the comments
removed at every level: the same tree with its spans, or the same failure with the same tree of
what was completed. -/
theorem ofText_withoutComments (maxDepth : Int) (source : Text) :
    ofText ⟨maxDepth, false⟩ source =
      match ofText ⟨maxDepth, true⟩ source with
      | .ok document => .ok document.withoutComments
      | .error failure => .error failure.withoutComments := by
  have hrun : run ⟨maxDepth, false⟩ source =
      viewed Session.withoutComments (run ⟨maxDepth, true⟩ source) :=
    turnsUpTo_shadows (source.length + 1) ⟨.ofText source, .empty⟩
  unfold ofText
  rw [hrun]
  cases hwith : run ⟨maxDepth, true⟩ source with
  | ok value S => rfl
  | error fault S =>
      cases fault with
      | malformed error =>
          simp only [viewed, Failure.withoutComments, Document.withoutComments, ofSession, ofItems]
          rw [Scopes.dropComments_unfinished, Scopes.withoutComments_add, dropComments_commentItems]
          rfl
      | numeralTooLong digits => rfl
      | stalled => rfl

end Document

end DiagramText
