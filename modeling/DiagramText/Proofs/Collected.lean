import DiagramText.Proofs.Comments
import DiagramText.Proofs.Grammar.Building
import DiagramText.Proofs.Grammar.Steps

/-!
# Every comment is kept once

The comments that are met while a source is read are those that would be left
with the reader if nobody took them (`Document.collected`).  With comments kept
they become the comments of the tree, each once and in order, in whatever block
they are put; and so they do in the tree of what was completed before a syntax
error (`Document.comments_collected`).

The two readings go side by side.  A turn that places its comments is matched by
one that leaves them with the reader: the readers differ in the comments placed so
far, and these are the comments in the scopes (`Grammar.turn_gathers`).
-/

namespace DiagramText

open Grammar Reader

/-! ## The comments in a tree -/

mutual

/-- The comments in an item, in the order of a walk. -/
def Item.commentsIn : Item → List Item
  | .container _ _ children => Item.commentsAll children
  | item => if item.isComment then [item] else []

/-- The comments in some items. -/
def Item.commentsAll : List Item → List Item
  | [] => []
  | item :: others => item.commentsIn ++ Item.commentsAll others

end

namespace Item

/-- The comments of items are those of each of them, in order. -/
theorem commentsAll_eq_flatMap (items : List Item) : commentsAll items = items.flatMap commentsIn := by
  induction items with
  | nil => rfl
  | cons item items ih => rw [commentsAll, ih, List.flatMap_cons]

/-- The comments of items one after the other are those of both. -/
@[simp] theorem commentsAll_append (items others : List Item) :
    commentsAll (items ++ others) = commentsAll items ++ commentsAll others := by
  simp only [commentsAll_eq_flatMap, List.flatMap_append]

/-- An item without a block has no comments. -/
theorem commentsIn_leaf {item : Item} (h : item.isLeaf = true) : item.commentsIn = [] := by
  obtain ⟨_, rfl⟩ | ⟨_, rfl⟩ | ⟨_, rfl⟩ := cases_of_isLeaf h <;> rfl

/-- A comment is its own and only comment. -/
theorem commentsIn_of_isComment {item : Item} (h : item.isComment = true) : item.commentsIn = [item] := by
  cases item <;> first | rfl | cases h

/-- Of comments all are collected. -/
theorem commentsAll_comments (comments : List Token) :
    commentsAll (comments.map commentItem) = comments.map commentItem := by
  induction comments with
  | nil => rfl
  | cons comment comments ih =>
      rw [List.map_cons, commentsAll, ih, commentsIn_of_isComment (isComment_commentItem comment)]
      rfl

end Item

namespace Node

/-- The comments at a node and below it. -/
def comments : Node → List Node
  | .document d => (Item.commentsAll d.children).map .item
  | .item i => i.commentsIn.map .item
  | .block _ items => (Item.commentsAll items).map .item
  | _ => []

/-- A walk over items comes to their comments in order. -/
theorem comments_items (items : List Item) :
    (items.map Node.item).flatMap comments = (Item.commentsAll items).map .item := by
  rw [Item.commentsAll_eq_flatMap, List.flatMap_map, List.map_flatMap]
  rfl

/-- Nodes of a kind that holds no comments hold none. -/
theorem comments_leaves {α : Type} {leaf : α → Node} (h : ∀ a, (leaf a).comments = [])
    (values : List α) : (values.map leaf).flatMap comments = [] := by
  rw [List.flatMap_map, List.flatMap_eq_nil_iff]
  exact fun a _ => h a

@[simp] theorem comments_block (mark : BlockMark) (items : List Item) :
    (block mark items).comments = (Item.commentsAll items).map .item := rfl

@[simp] theorem comments_identifier (i : Identifier) : (identifier i).comments = [] := rfl

@[simp] theorem comments_target (target : Target) : target.node.comments = [] := by
  cases target <;> rfl

/-- The comments at a node are the node itself, if it is one, and those of its parts. -/
theorem comments_eq (node : Node) :
    node.comments = (if node.isComment then [node] else []) ++ node.children.flatMap comments := by
  have hidentifiers : ∀ l : List Identifier, (l.map identifier).flatMap comments = [] :=
    comments_leaves fun _ => rfl
  have harguments : ∀ l : List Argument, (l.map argument).flatMap comments = [] :=
    comments_leaves fun _ => rfl
  have hconnections : ∀ l : List Connection, (l.map connection).flatMap comments = [] :=
    comments_leaves fun _ => rfl
  have hlabel : ∀ l : List Label, (l.map label).flatMap comments = [] := comments_leaves fun _ => rfl
  have himports : ∀ l : List Import, (l.map fun i => item (.importing i)).flatMap comments = [] :=
    comments_leaves fun _ => rfl
  cases node with
  | document d => simp [comments, isComment, children, comments_items]
  | block mark items => simp [isComment, children, comments_items]
  | item i =>
      have hitem : (item i).comments = i.commentsIn.map .item := rfl
      rw [hitem]
      cases i <;> simp [isComment, children, Item.commentsIn, Item.isComment, ofLabel, ofImport,
        harguments, hlabel, himports]
  | _ => simp [comments, isComment, children, hidentifiers, hconnections]

/-- The comments of a walk. -/
theorem filter_walk_isComment (node : Node) : node.walk.filter isComment = node.comments :=
  filter_walk comments_eq node

end Node

namespace Grammar

/-! ## The comments in the scopes -/

/-- A block has the comments of what it holds, and of what is added at its end. -/
theorem OpenBlock.commentsAll_item (block : OpenBlock) (mark : BlockMark) (further : List Item) :
    Item.commentsAll [block.item mark further] =
      Item.commentsAll block.children ++ Item.commentsAll further := by
  simp [OpenBlock.item, Item.commentsAll, Item.commentsIn]

namespace Scopes

/-- The comments in the scopes, in the order in which the finished tree has them. -/
def comments (scopes : Scopes) : List Item :=
  Item.commentsAll scopes.unfinished

/-- The comments at the top come first, then those of the open blocks from the outermost on. -/
theorem comments_eq (scopes : Scopes) :
    scopes.comments = Item.commentsAll scopes.top ++
      scopes.blocks.reverse.flatMap fun block => Item.commentsAll block.children := by
  have hfold : ∀ (blocks : List OpenBlock) (inner : List Item),
      Item.commentsAll (blocks.foldl
        (fun inner block => [block.item ⟨false, block.brace.span⟩ inner]) inner) =
        (blocks.reverse.flatMap fun block => Item.commentsAll block.children) ++
          Item.commentsAll inner := by
    intro blocks
    induction blocks with
    | nil =>
        intro inner
        rfl
    | cons block blocks ih =>
        intro inner
        rw [List.foldl_cons, ih, OpenBlock.commentsAll_item]
        simp
  have hblocks := hfold scopes.blocks []
  rw [Item.commentsAll, List.append_nil] at hblocks
  rw [comments, unfinished, Item.commentsAll_append, hblocks]

/-- Comments that are added come last. -/
theorem comments_add (scopes : Scopes) (items : List Item) :
    (scopes.add items).comments = scopes.comments ++ Item.commentsAll items := by
  obtain ⟨top, blocks⟩ := scopes
  cases blocks <;> simp [comments_eq, add]

/-- A block that opens has no comments yet. -/
theorem comments_push (scopes : Scopes) {block : OpenBlock} (h : block.children = []) :
    (scopes.push block).comments = scopes.comments := by
  simp [comments_eq, push, h, Item.commentsAll]

/-- Closing a block keeps the comments in order. -/
theorem comments_pop (scopes : Scopes) (closing : Span) :
    (scopes.pop closing).comments = scopes.comments := by
  obtain ⟨top, blocks⟩ := scopes
  cases blocks with
  | nil => rfl
  | cons block outer =>
      rw [pop, comments_add, OpenBlock.commentsAll_item]
      simp [comments_eq, Item.commentsAll]

/-- Nothing but placing comments changes the comments in the scopes. -/
theorem growth_comments : Growth fun before after => after.comments = before.comments where
  refl _ := rfl
  trans h h' := h'.trans h
  leaf scopes item hleaf := by
    rw [comments_add, Item.commentsAll, Item.commentsAll, Item.commentsIn_leaf hleaf]
    exact List.append_nil _
  opening scopes _ _ _ := scopes.comments_push rfl
  close scopes closing := scopes.comments_pop closing

end Scopes

/-! ## Reading without taking comments -/

/-- A turn that leaves its comments with the reader. -/
def gather (config : Config) : Builder Bool := do
  let token ← parsing (Reader.peek .declaration)
  act config token

/-- At most `limit` such turns. -/
def gatherUpTo (config : Config) : (limit : Nat) → Builder Unit
  | 0 => throw .stalled
  | limit + 1 => do
    if ← gather config then gatherUpTo config limit

/-- The session that never placed a comment: its reader has these from before, and its scopes hold
none. -/
def Session.gathering (log : List Token) (S : Session) : Session :=
  S.withoutComments.recalling log

variable (maxDepth : Int) (log : List Token)

/-- Acting on a token is the same, whether comments are kept or gathered aside. -/
theorem act_gathering (token : Token) (S : Session) :
    Shadows (Session.gathering log) (act ⟨maxDepth, true⟩ token) (act ⟨maxDepth, false⟩ token) S :=
  (act_shadows token S).comp ((act_builds token).recalling log S.withoutComments)

/-- A turn is matched by one that leaves its comments with the reader: what the one has placed is what
the other still has. -/
theorem turn_gathers (S : Session) :
    ∃ placed, gather ⟨maxDepth, false⟩ (S.gathering log) =
        viewed (Session.gathering (log ++ placed)) (turn ⟨maxDepth, true⟩ S) ∧
      Ends (turn ⟨maxDepth, true⟩) S
        (fun _ T => T.scopes.comments = S.scopes.comments ++ placed.map commentItem)
        fun _ T => T.scopes.comments = S.scopes.comments ++ placed.map commentItem := by
  have hlook := (Looks.peek .declaration).recalling log S.reader
  cases hpeek : peek .declaration S.reader with
  | error fault r =>
      have hturn : turn ⟨maxDepth, true⟩ S = _ := turn_of_peek_error hpeek
      refine ⟨[], ?_, (ends_of_error hturn).mpr (List.append_nil _).symm⟩
      rw [Shadows, hpeek] at hlook
      have hparsing : parsing (peek .declaration) (S.gathering log) = _ := parsing_error hlook
      rw [gather, bind_error hparsing, hturn, List.append_nil]
      rfl
  | ok token r =>
      have hturn : turn ⟨maxDepth, true⟩ S = _ := turn_of_peek hpeek
      have hitems : commentItems ⟨maxDepth, true⟩ r.comments = r.comments.map commentItem := rfl
      refine ⟨r.comments, ?_, (ends_congr hturn).mpr ?_⟩
      · rw [Shadows, hpeek] at hlook
        have hparsing : parsing (peek .declaration) (S.gathering log) = _ := parsing_ok hlook
        have hsettled : (Session.mk (r.recalling log) (S.gathering log).scopes) =
            (settled ⟨maxDepth, true⟩ r S.scopes).gathering (log ++ r.comments) := by
          simp [Session.gathering, Session.recalling, Session.withoutComments, settled, Reader.recalling,
            Reader.emptied, Scopes.withoutComments_add, dropComments_commentItems]
        rw [gather, bind_ok hparsing, hsettled, hturn]
        exact act_gathering maxDepth _ token _
      · have hkept : (settled ⟨maxDepth, true⟩ r S.scopes).scopes.comments =
            S.scopes.comments ++ r.comments.map commentItem := by
          rw [settled, Scopes.comments_add, hitems, Item.commentsAll_comments]
        rw [← hkept]
        exact (act_builds token).grows Scopes.growth_comments _

/-- So are all turns.  The induction is on how many there may be. -/
theorem turnsUpTo_gathers (limit : Nat) (S : Session) :
    ∃ placed, gatherUpTo ⟨maxDepth, false⟩ limit (S.gathering log) =
        viewed (Session.gathering (log ++ placed)) (turnsUpTo ⟨maxDepth, true⟩ limit S) ∧
      Ends (turnsUpTo ⟨maxDepth, true⟩ limit) S
        (fun _ T => T.scopes.comments = S.scopes.comments ++ placed.map commentItem)
        fun _ T => T.scopes.comments = S.scopes.comments ++ placed.map commentItem := by
  induction limit generalizing S log with
  | zero => exact ⟨[], by rw [List.append_nil]; rfl, (List.append_nil _).symm⟩
  | succ limit ih =>
      obtain ⟨placed, hgather, hplaced⟩ := turn_gathers maxDepth log S
      unfold gatherUpTo turnsUpTo
      cases hturn : turn ⟨maxDepth, true⟩ S with
      | error fault T =>
          rw [hturn] at hgather
          refine ⟨placed, ?_, (ends_of_error (bind_error hturn)).mpr (hplaced.error hturn)⟩
          rw [bind_error hgather, bind_error hturn]
          rfl
      | ok again T =>
          rw [hturn] at hgather
          have hplaced := hplaced.ok hturn
          cases again with
          | false =>
              refine ⟨placed, ?_, (ends_congr (bind_ok hturn)).mpr hplaced⟩
              rw [bind_ok hgather, bind_ok hturn]
              rfl
          | true =>
              obtain ⟨later, hlater, hends⟩ := ih (log ++ placed) T
              refine ⟨placed ++ later, ?_, (ends_congr (bind_ok hturn)).mpr ?_⟩
              · rw [bind_ok hgather, bind_ok hturn, ← List.append_assoc]
                exact hlater
              · rw [List.map_append, ← List.append_assoc, ← hplaced]
                exact hends

/-! ## Where the comments stand -/

variable (config : Config) {source : Text}

/-- A turn that gathers comments logs them. -/
theorem gather_logs (S : Session) (hS : S.reader.Logs source) :
    Ends (gather config) S (fun _ T => T.reader.Logs source)
      fun _ T => ∃ stop, Logged source T.reader.comments stop :=
  ((Builds.parsing (.peek _)).bind fun token _ _ _ => act_builds token).logs S hS

/-- Turns that leave their comments with the reader leave them logged.  The induction is on how many
there may be. -/
theorem gatherUpTo_logs (limit : Nat) (S : Session) (hS : S.reader.Logs source) :
    Ends (gatherUpTo config limit) S (fun _ T => T.reader.Logs source)
      fun _ T => ∃ stop, Logged source T.reader.comments stop := by
  induction limit generalizing S with
  | zero => exact ⟨_, hS.logged⟩
  | succ limit ih =>
      apply (gather_logs config S hS).bind
      intro again T hT
      cases again with
      | false => exact hT
      | true => exact ih T hT

end Grammar

namespace Document

/-- The comments that reading a source meets, in order: those that are left with the reader when
nobody takes them. -/
def collected (maxDepth : Int) (source : Text) : List Token :=
  match gatherUpTo ⟨maxDepth, false⟩ (source.length + 1) ⟨.ofText source, .empty⟩ with
  | .ok _ S => S.reader.comments
  | .error _ S => S.reader.comments

/-- The comments of what a run with comments kept leaves, those ahead included, are those collected. -/
theorem comments_of_run (maxDepth : Int) (source : Text) :
    Ends (turnsUpTo ⟨maxDepth, true⟩ (source.length + 1)) ⟨.ofText source, .empty⟩
      (fun _ T => T.scopes.comments ++ T.reader.comments.map commentItem =
        (collected maxDepth source).map commentItem)
      fun _ T => T.scopes.comments ++ T.reader.comments.map commentItem =
        (collected maxDepth source).map commentItem := by
  obtain ⟨placed, hgathers, hends⟩ := turnsUpTo_gathers maxDepth [] (source.length + 1)
    ⟨.ofText source, .empty⟩
  have hstart : (Session.mk (.ofText source) .empty).gathering [] = ⟨.ofText source, .empty⟩ := rfl
  rw [hstart, List.nil_append] at hgathers
  unfold collected
  rw [hgathers]
  cases hrun : turnsUpTo ⟨maxDepth, true⟩ (source.length + 1) ⟨.ofText source, .empty⟩ with
  | ok value T =>
      rw [ends_of_ok hrun, hends.ok hrun]
      simp [viewed, Session.gathering, Session.recalling, Session.withoutComments, Reader.recalling,
        Scopes.comments_eq, Scopes.empty, Item.commentsAll]
  | error fault T =>
      rw [ends_of_error hrun, hends.error hrun]
      simp [viewed, Session.gathering, Session.recalling, Session.withoutComments, Reader.recalling,
        Scopes.comments_eq, Scopes.empty, Item.commentsAll]

/-- The collected comments are comments of the source, one after another. -/
theorem collected_logged (maxDepth : Int) (source : Text) :
    ∃ stop, Logged source (collected maxDepth source) stop := by
  have hends := gatherUpTo_logs ⟨maxDepth, false⟩ (source.length + 1) ⟨.ofText source, .empty⟩ (logs_ofText source)
  unfold collected
  cases hrun : gatherUpTo ⟨maxDepth, false⟩ (source.length + 1) ⟨.ofText source, .empty⟩ with
  | ok value S =>
      have hlogs := hends.ok hrun
      exact ⟨_, hlogs.logged⟩
  | error fault S => exact hends.error hrun

variable {maxDepth : Int} {source : Text}

/-- A comment takes up some of the source. -/
theorem lt_of_isComment {comment : Token} (hcomment : comment.IsComment)
    (hcut : comment.CutFrom source) : comment.span.start < comment.span.stop := by
  obtain ⟨hkind, mode, rest, hscan⟩ := hcomment
  have hpos := Mode.length_pos_of_isComment hscan hkind
  have hlength := hcut.stop_eq
  simp only at hpos
  omega

/-- The comments in what reading a source gives are those collected: in the whole tree, or in what was
completed before a syntax error. -/
theorem commentsAll_of_ofText {tree : Document}
    (h : ofText ⟨maxDepth, true⟩ source = .ok tree ∨
      ∃ error, ofText ⟨maxDepth, true⟩ source = .error (.malformed error tree)) :
    Item.commentsAll tree.children = (collected maxDepth source).map commentItem := by
  have hrun := comments_of_run maxDepth source
  rcases h with hread | ⟨error, hfailed⟩
  · obtain ⟨T, hturns, rfl⟩ := exists_read hread
    have hitems := hrun.ok hturns
    obtain ⟨hcomes, hblocks⟩ := (turns_comes (sound_ofText source)).ok hturns
    rw [hcomes.comments, Scopes.comments_eq, hblocks] at hitems
    simpa [ofItems] using hitems
  · obtain ⟨T, hturns, rfl⟩ := exists_failed hfailed
    have hitems := hrun.error hturns
    have hkept : commentItems ⟨maxDepth, true⟩ T.reader.comments =
        T.reader.comments.map commentItem := rfl
    rw [← hitems, ← Item.commentsAll_comments T.reader.comments, ← Scopes.comments_add]
    rfl

/-- With comments kept, the comments of the tree that a source gives, or of what was completed of it
before a syntax error, are in the order of a walk exactly those that were collected; they are comments
of the source, and each stands after the one before. -/
theorem comments_collected {tree : Document}
    (h : ofText ⟨maxDepth, true⟩ source = .ok tree ∨
      ∃ error, ofText ⟨maxDepth, true⟩ source = .error (.malformed error tree)) :
    (Node.document tree).walk.filter (·.isComment) =
        (collected maxDepth source).map (fun comment => .item (commentItem comment)) ∧
      (∀ comment ∈ collected maxDepth source, comment.IsComment ∧ comment.CutFrom source) ∧
      (((Node.document tree).walk.filter (·.isComment)).map (·.span)).Pairwise
        fun a b => a.start < b.start ∧ a.stop ≤ b.start := by
  obtain ⟨stop, hlogged⟩ := collected_logged maxDepth source
  have hwalk : (Node.document tree).walk.filter (·.isComment) =
      (collected maxDepth source).map (fun comment => .item (commentItem comment)) := by
    rw [Node.filter_walk_isComment, Node.comments, commentsAll_of_ofText h, List.map_map]
    rfl
  have hspans : (((Node.document tree).walk.filter (·.isComment)).map (·.span)) =
      (collected maxDepth source).map (·.span) := by
    rw [hwalk, List.map_map]
    exact List.map_congr_left fun comment _ => span_commentItem comment
  refine ⟨hwalk, hlogged.each, ?_⟩
  rw [hspans]
  apply hlogged.row.pairwise.imp_of_mem
  intro a b ha _ hbefore
  obtain ⟨comment, hcomment, rfl⟩ := List.mem_map.mp ha
  obtain ⟨hkind, hcut⟩ := hlogged.each comment hcomment
  have hlt := lt_of_isComment hkind hcut
  omega

/-- A comment inside a declaration, one at the front of its block, one that is passed while looking for
the end of a statement, and a string that is never closed. -/
theorem comments_collected_failed :
    ∃ error tree, ofText ⟨1, true⟩ "x \x22\x22\x22a\x22\x22\x22: \x7b #b\n c: 1#d\n'".toList =
        .error (.malformed error tree) ∧
      (collected 1 "x \x22\x22\x22a\x22\x22\x22: \x7b #b\n c: 1#d\n'".toList).length = 3 ∧
      (Node.document tree).walk.filter (·.isComment) =
        (collected 1 "x \x22\x22\x22a\x22\x22\x22: \x7b #b\n c: 1#d\n'".toList).map
          (fun comment => .item (commentItem comment)) ∧
      (((Node.document tree).walk.filter (·.isComment)).map (·.span)).Pairwise
        fun a b => a.start < b.start ∧ a.stop ≤ b.start := by
  obtain ⟨error, tree, hfailed, _⟩ := exists_failed_of_any (p := fun _ => true)
    (x := ofText ⟨1, true⟩ "x \x22\x22\x22a\x22\x22\x22: \x7b #b\n c: 1#d\n'".toList)
    (by decide +kernel)
  obtain ⟨hcomments, _, hspans⟩ := comments_collected (.inr ⟨error, hfailed⟩)
  exact ⟨error, tree, hfailed, by decide +kernel, hcomments, hspans⟩

end Document

end DiagramText
