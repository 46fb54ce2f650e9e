import DiagramText.Proofs.Grammar.Steps
import DiagramText.Proofs.Reader.Crossing

/-!
# What follows a bare literal

A label text such as `1` is a text only where something that is no blank follows
it on its line.  With comments kept that something is in the tree: the item of the
label is followed by a comment, or it is the last of its block
(`Document.tidy_of_ofText`).

The invariant of the turns says so of all scopes, but the last item of the
innermost one may still wait for what follows it; then the reader stands before a
comment or a closing brace (`Session.Tidy`).
-/

namespace DiagramText

open Grammar Reader

/-- In each block under the item, what has to be followed by something on its line is. -/
inductive Item.Tidy : Item → Prop
  | leaf {item : Item} (leaf : item.isLeaf = true) : Tidy item
  | comment (token : Token) : Tidy (commentItem token)
  | container {declaration : Declaration} {mark : BlockMark} {children : List Item}
      (within : ∀ item ∈ children, Tidy item) (glued : Item.Glued true children) :
      Tidy (.container declaration mark children)

namespace Item

variable {items others : List Item} {item : Item} {closing : Bool}

theorem needsGlue_commentItem (token : Token) : (commentItem token).needsGlue = false := by
  unfold commentItem
  split <;> rfl

/-- Where nothing waits for a brace a brace does no harm. -/
theorem Glued.mono (h : Glued false items) : Glued closing items := by
  induction items with
  | nil => trivial
  | cons item items ih =>
      cases items with
      | nil => exact fun hneeds => absurd (h hneeds) (by decide)
      | cons next others => exact ⟨h.1, ih h.2⟩

/-- What is added to a list of which no item waits waits itself at most. -/
theorem Glued.add_item (h : Glued false items) (hitem : item.needsGlue = true → closing = true) :
    Glued closing (items ++ [item]) := by
  induction items with
  | nil => exact hitem
  | cons first items ih =>
      cases items with
      | nil => exact ⟨fun hneeds => absurd (h hneeds) (by decide), hitem⟩
      | cons next others => exact ⟨h.1, ih h.2⟩

/-- Comments end the waiting. -/
theorem Glued.add_comment (h : Glued closing items) (hitem : item.isComment = true)
    (hfree : item.needsGlue = false) : Glued false (items ++ [item]) := by
  induction items with
  | nil => exact fun hneeds => absurd hneeds (by simp [hfree])
  | cons first items ih =>
      cases items with
      | nil => exact ⟨fun _ => hitem, fun hneeds => absurd hneeds (by simp [hfree])⟩
      | cons next others => exact ⟨h.1, ih h.2⟩

theorem Glued.add_comments (h : Glued closing items) {comments : List Token} (hsome : comments ≠ []) :
    Glued false (items ++ comments.map commentItem) := by
  induction comments generalizing items closing with
  | nil => exact absurd rfl hsome
  | cons comment comments ih =>
      have hfirst := h.add_comment (isComment_commentItem comment) (needsGlue_commentItem comment)
      rw [List.map_cons, ← List.singleton_append, ← List.append_assoc]
      cases comments with
      | nil => simpa using hfirst
      | cons next others => exact ih hfirst (by simp)

end Item

namespace Grammar

/-- The items are tidy, and none waits for what follows it; the last of them may if `loose` is
set. -/
structure Row (loose : Bool) (items : List Item) : Prop where
  each : ∀ item ∈ items, item.Tidy
  glued : Item.Glued loose items

/-- The items of the blocks and those at the top are in rows, and only the innermost one may be
loose. -/
def OpenBlock.Rows (top : List Item) : (loose : Bool) → List OpenBlock → Prop
  | loose, [] => Row loose top
  | loose, block :: outer => Row loose block.children ∧ Rows top false outer

/-- The items of the scopes are tidy, and none waits for what follows it; the last item of the
innermost scope may if `loose` is set. -/
def Scopes.Tidy (loose : Bool) (scopes : Scopes) : Prop :=
  OpenBlock.Rows scopes.top loose scopes.blocks

variable {items : List Item} {loose : Bool}

theorem Row.mono (h : Row false items) : Row loose items :=
  ⟨h.each, h.glued.mono⟩

/-- Tidy items are added to a row as far as none before them is left to wait. -/
theorem Row.append {loose' : Bool} {others : List Item} (h : Row loose items)
    (hothers : ∀ item ∈ others, item.Tidy)
    (hglued : Item.Glued loose items → Item.Glued loose' (items ++ others)) :
    Row loose' (items ++ others) :=
  ⟨List.forall_mem_append.mpr ⟨h.each, hothers⟩, hglued h.glued⟩

namespace Scopes

variable {scopes : Scopes}

theorem Tidy.mono (h : scopes.Tidy false) : scopes.Tidy loose := by
  obtain ⟨top, blocks⟩ := scopes
  cases blocks with
  | nil => exact Row.mono h
  | cons block outer => exact ⟨Row.mono h.1, h.2⟩

/-- Items are added to the innermost scope, and the others stay as they are. -/
theorem Tidy.add {loose' : Bool} (h : scopes.Tidy loose) (hitems : ∀ item ∈ items, item.Tidy)
    (hglued : ∀ before, Item.Glued loose before → Item.Glued loose' (before ++ items)) :
    (scopes.add items).Tidy loose' := by
  obtain ⟨top, blocks⟩ := scopes
  cases blocks with
  | nil => exact Row.append h hitems (hglued top)
  | cons block outer => exact ⟨h.1.append hitems (hglued block.children), h.2⟩

theorem Tidy.push (h : scopes.Tidy false) (target : Target) (label : Option Label) (brace : Token) :
    (scopes.push ⟨brace, target, label, []⟩).Tidy false :=
  ⟨⟨by simp, trivial⟩, h⟩

/-- A block may be closed while its last item waits for the brace. -/
theorem Tidy.pop (h : scopes.Tidy true) (hblocks : scopes.blocks ≠ []) (closing : Span) :
    (scopes.pop closing).Tidy false := by
  obtain ⟨top, blocks⟩ := scopes
  cases blocks with
  | nil => exact absurd rfl hblocks
  | cons block outer =>
      have houter : Tidy false ⟨top, outer⟩ := h.2
      refine houter.add (List.forall_mem_singleton.mpr ?_) fun before hbefore =>
        hbefore.add_item fun hneeds => by cases hneeds
      refine .container ?_ ?_
      · simpa using h.1.each
      · simpa using h.1.glued

end Scopes

/-- All items are tidy; one may wait for a comment or a closing brace that the reader has ahead. -/
def Session.Tidy (S : Session) : Prop :=
  S.scopes.Tidy false ∨ S.scopes.Tidy true ∧ S.reader.Glues

variable {config : Config} {S T : Session} {token : Token} {again : Bool}

/-- In a settled session an item waits only right before a closing brace. -/
theorem Session.Tidy.of_not_brace (h : S.Tidy) (hS : Settled S token)
    (hbrace : ¬ token.isPunct '\x7d' = true) : S.scopes.Tidy false := by
  rcases h with htidy | ⟨_, hcomments | ⟨rest, htext⟩⟩
  · exact htidy
  · exact absurd hS.comments hcomments
  · obtain ⟨hscan, hcut⟩ := hS.shows.scan hS.sound
    have hfound := (Mode.finds_brace (.inl rfl : Mode.declaration.IsLine) rest).settled.2.2.1
    rw [htext] at hscan hcut
    obtain ⟨hkind, hlength⟩ := Lexeme.mk.inj (Except.ok.inj (hscan.symm.trans hfound))
    rw [hlength] at hcut
    refine absurd ?_ hbrace
    simp [Token.isPunct, Token.isPunctOf, hkind, hcut]

/-- Looking ahead passes a comment, or stays at the closing brace. -/
theorem Session.Tidy.settled (hkeep : config.keepComments = true) (h : S.Tidy) {r : Reader}
    (hsees : Sees .declaration S.reader token r) : (settled config r S.scopes).Tidy := by
  have hitems : commentItems config r.comments = r.comments.map commentItem := if_pos hkeep
  have htidy : ∀ item ∈ r.comments.map commentItem, item.Tidy := by
    intro item hitem
    obtain ⟨comment, _, rfl⟩ := List.mem_map.mp hitem
    exact .comment comment
  have hplaced : S.scopes.Tidy true → r.comments ≠ [] → (Grammar.settled config r S.scopes).Tidy := by
    intro hscopes hsome
    refine .inl (hscopes.add (hitems ▸ htidy) fun before hbefore => ?_)
    rw [hitems]
    exact hbefore.add_comments hsome
  by_cases hnone : r.comments = []
  · have hscopes : (Grammar.settled config r S.scopes).scopes = S.scopes := by
      rw [Grammar.settled, hnone, commentItems_nil, Scopes.add_nil]
    rcases h with hscoped | ⟨hscoped, hcomments | ⟨rest, htext⟩⟩
    · exact .inl (by rwa [hscopes])
    · obtain ⟨remarks, _, _, hremarks, _⟩ := hsees.finds
      rw [Reader.remarks, hnone, List.map_nil] at hremarks
      have := (List.append_eq_nil_iff.mp hremarks.symm).1
      exact absurd (List.map_eq_nil_iff.mp this) hcomments
    · obtain ⟨_, _, hfinds, _⟩ := hsees.finds
      rw [htext] at hfinds
      have hhere := (hfinds.unique (Mode.finds_brace (.inl rfl) rest)).2.2.2
      exact .inr ⟨by rwa [hscopes], .inr ⟨rest, hhere⟩⟩
  · exact hplaced (h.elim (·.mono) (·.1)) hnone

/-- What a turn does keeps the scopes tidy. -/
theorem Acts.tidy (h : Acts config token S again T) (hS : Settled S token) (hscopes : S.Tidy) :
    T.Tidy := by
  have hbrace : token.kind ≠ .punct → ¬ token.isPunct '\x7d' = true := fun hkind hbrace =>
    hkind (Token.kind_of_isPunctOf hbrace)
  cases h with
  | terminator kind => exact .inl (hscopes.of_not_brace hS (hbrace (by simp [kind])))
  | stop => exact hscopes
  | close brace blocks finished =>
      have hloose : S.scopes.Tidy true := hscopes.elim (·.mono) (·.1)
      exact .inl (hloose.pop blocks _)
  | @item item r other read =>
      obtain ⟨_, _, hglues⟩ := (statement_spec hS.sound).ok read
      have hleaf := (statement_leaf S.reader).ok read _ rfl
      have hstrict := hscopes.of_not_brace hS other
      have hadded : ∀ loose, (item.needsGlue = true → loose = true) →
          (S.scopes.add [item]).Tidy loose := fun loose hloose =>
        hstrict.add (List.forall_mem_singleton.mpr (.leaf hleaf)) fun before hbefore =>
          hbefore.add_item hloose
      by_cases hneeds : item.needsGlue = true
      · exact .inr ⟨hadded true fun _ => rfl, hglues hneeds⟩
      · exact .inl (hadded false fun h => absurd h hneeds)
  | opening other read allowed => exact .inl ((hscopes.of_not_brace hS other).push _ _ _)

/-- At the end of the source no item waits. -/
theorem Comes.tidy (hkeep : config.keepComments = true) (h : Comes config S T) (hS : S.Tidy) :
    T.scopes.Tidy false := by
  have hkept : T.Tidy := h.keeps (P := Session.Tidy)
    (fun S token r hsound hpeeked hS => hS.settled hkeep ((peek_spec hsound .declaration).ok hpeeked))
    (fun S token again T hsettled hacts hS => hacts.tidy hsettled hS) hS
  rcases hkept with htidy | ⟨_, hcomments | ⟨rest, htext⟩⟩
  · exact htidy
  · exact absurd h.comments hcomments
  · rw [h.text] at htext
    cases htext

end Grammar

/-- In a document that was read with its comments, whatever has to be followed by something on its
line is followed by a comment, or is the last item of a block. -/
theorem Document.tidy_of_ofText {config : Config} (hkeep : config.keepComments = true)
    {source : Text} {document : Document} (h : ofText config source = .ok document) :
    Row false document.children := by
  obtain ⟨T, hcomes, hscopes⟩ := comes_of_ofText h
  have hempty : Scopes.empty.Tidy false := ⟨by simp [Scopes.empty], trivial⟩
  have htidy := hcomes.tidy hkeep (.inl hempty)
  rw [hscopes] at htidy
  exact htidy

end DiagramText
