import DiagramText.Proofs.Reprint.Lines

/-!
# A source inside a block

A scope means the same wherever it stands.  Scopes can be put inside a block
that was opened in others (`Scopes.inside`): what stood at the top then stands
in the block, and the blocks that were open are open above it.  A turn that
succeeds does the same there, if the limit on nesting leaves room for the
blocks around (`turn_inside`), and so do all turns up to the end of the source
(`Comes.inside`).

A line break and a closing brace after the source take the place of its end
(`outcome_enclosed`), so a source that is read is read in a block, too, and its
items are those of the block (`Document.ofText_enclosed`).
-/

namespace DiagramText

open Grammar Reader

namespace Grammar

namespace Scopes

/-- The scopes inside a block that was opened in others: what stood at the top stands in the block. -/
def inside (scopes outer : Scopes) (block : OpenBlock) : Scopes :=
  ⟨outer.top,
    scopes.blocks ++ { block with children := block.children ++ scopes.top } :: outer.blocks⟩

variable (scopes outer : Scopes) (block : OpenBlock)

/-- Items outside of all blocks stand in the block. -/
theorem inside_top (items : List Item) :
    inside ⟨items, []⟩ outer block = (outer.push block).add items := rfl

theorem inside_add (items : List Item) :
    (scopes.add items).inside outer block = (scopes.inside outer block).add items := by
  obtain ⟨top, blocks⟩ := scopes
  cases blocks <;> simp [inside, add]

/-- A block that is open in the scopes is closed in the same way inside others. -/
theorem inside_pop (h : scopes.blocks ≠ []) (closing : Span) :
    (scopes.pop closing).inside outer block = (scopes.inside outer block).pop closing := by
  obtain ⟨top, blocks⟩ := scopes
  cases blocks with
  | nil => exact absurd rfl h
  | cons inner blocks =>
      simp only [pop, inside_add]
      rfl

theorem length_blocks_inside :
    (scopes.inside outer block).blocks.length = scopes.blocks.length + (outer.blocks.length + 1) := by
  simp [inside]

end Scopes

/-- The session with its scopes inside a block that was opened in others. -/
def Session.inside (S : Session) (outer : Scopes) (block : OpenBlock) : Session :=
  ⟨S.reader, S.scopes.inside outer block⟩

variable {config config' : Config} {S T : Session} {token : Token} {outer : Scopes}
  {block : OpenBlock}

/-! ## Turns inside a block -/

section
variable (hdepth : max config.maxDepth 0 + (outer.blocks.length + 1 : Nat) ≤ config'.maxDepth)
include hdepth

/-- What a statement read is put into the scopes inside the block, too. -/
theorem place_inside {read : Statement} {again : Bool} (h : place config read S = .ok again T) :
    place config' read (S.inside outer block) = .ok again (T.inside outer block) := by
  cases read with
  | item item =>
      cases h
      have hadded : Session.inside ⟨S.reader, S.scopes.add [item]⟩ outer block =
          ⟨S.reader, (S.scopes.inside outer block).add [item]⟩ :=
        congrArg (Session.mk _) (S.scopes.inside_add outer block [item])
      exact congrArg (EStateM.Result.ok true) hadded.symm
  | opening target label brace =>
      obtain ⟨_, U, hopen, hpure⟩ := bind_eq_ok.mp h
      cases hpure
      rw [openBlock_eq] at hopen
      split at hopen
      · cases hopen
      · next hallowed =>
          cases hopen
          have hroom : ¬ config'.maxDepth < (S.inside outer block).scopes.blocks.length + 1 := by
            rw [Session.inside, Scopes.length_blocks_inside]
            omega
          have hopened := openBlock_eq config' ⟨brace, target, label, []⟩ (S.inside outer block)
          rw [if_neg hroom] at hopened
          exact bind_ok hopened

/-- A turn that goes on does the same inside the block. -/
theorem act_inside (hS : Settled S token) (h : act config token S = .ok true T) :
    act config' token (S.inside outer block) = .ok true (T.inside outer block) := by
  have hinside : Settled (S.inside outer block) token := ⟨hS.sound, hS.shows, hS.comments⟩
  by_cases hterminator : token.kind = .terminator
  · cases (act_terminator hS hterminator).symm.trans h
    exact act_terminator hinside hterminator
  by_cases heof : token.kind = .eof
  · have hact := (act_eof heof).symm.trans h
    split at hact <;> cases hact
  by_cases hbrace : token.isPunct '\x7d' = true
  · rw [act_brace hbrace] at h
    split at h
    · cases h
    · next inner blocks hblocks =>
        obtain ⟨_, U, hclose, hpure⟩ := bind_eq_ok.mp h
        cases hpure
        rw [closeBlock_of_advance (hS.shows.advance_eq heof)] at hclose
        cases hfinish : finishBlock S.reader.consumed with
        | error fault r => cases (parsing_error hfinish).symm.trans hclose
        | ok value r =>
            cases (parsing_ok hfinish).symm.trans hclose
            have hopen : (S.inside outer block).scopes.blocks =
                inner :: (Scopes.inside ⟨S.scopes.top, blocks⟩ outer block).blocks := by
              simp [Session.inside, Scopes.inside, hblocks]
            have hpop : Session.inside ⟨r, S.scopes.pop token.span⟩ outer block =
                ⟨r, (S.inside outer block).scopes.pop token.span⟩ :=
              congrArg (Session.mk r) (Scopes.inside_pop _ _ _ (by simp [hblocks]) _)
            have hclosed : closeBlock (S.inside outer block) = .ok () ⟨r, _⟩ :=
              (closeBlock_of_advance (hinside.shows.advance_eq heof)).trans (parsing_ok hfinish)
            refine (act_brace hbrace).trans ?_
            rw [hopen]
            exact (bind_ok hclosed).trans (congrArg (EStateM.Result.ok true) hpop.symm)
  · rw [act_statement hterminator heof hbrace] at h
    obtain ⟨read, U, hstatement, hplace⟩ := bind_eq_ok.mp h
    cases hread : statement S.reader with
    | error fault r => cases (parsing_error hread).symm.trans hstatement
    | ok found r =>
        cases (parsing_ok hread).symm.trans hstatement
        rw [act_statement hterminator heof hbrace]
        have hstated : parsing statement (S.inside outer block) =
            .ok read (Session.inside ⟨r, S.scopes⟩ outer block) := parsing_ok hread
        exact (bind_ok hstated).trans (place_inside hdepth hplace)

variable (hkeep : config'.keepComments = config.keepComments)
include hkeep

omit hdepth in
/-- Inside the block the same comments are placed. -/
theorem settled_inside (r : Reader) (scopes : Scopes) :
    settled config' r (scopes.inside outer block) =
      (settled config r scopes).inside outer block := by
  rw [settled, Session.inside, settled, Scopes.inside_add, commentItems, commentItems, hkeep]

theorem turn_inside (hS : S.reader.Sound) (h : turn config S = .ok true T) :
    turn config' (S.inside outer block) = .ok true (T.inside outer block) := by
  cases hpeek : peek .declaration S.reader with
  | error fault r => cases (turn_of_peek_error hpeek).symm.trans h
  | ok token r =>
      have hsettled : Settled (settled config r S.scopes) token :=
        settled_of_sees ((peek_spec hS .declaration).ok hpeek)
      rw [turn_of_peek hpeek] at h
      have hpeek' : peek .declaration (S.inside outer block).reader = .ok token r := hpeek
      have hsame : settled config' r (S.inside outer block).scopes =
          (settled config r S.scopes).inside outer block := settled_inside hkeep r S.scopes
      rw [turn_of_peek hpeek', hsame]
      exact act_inside hdepth hsettled h

/-- The turns come to the end of the source inside the block, too.  The induction is on the turns. -/
theorem Comes.inside (h : Comes config S T) :
    Comes config' (S.inside outer block) (T.inside outer block) := by
  induction h with
  | @stop S token r sound peeked eof =>
      rw [← settled_inside hkeep r S.scopes]
      exact .stop (S := S.inside outer block) sound peeked eof
  | turn sound turned _ ih => exact .turn sound (turn_inside hdepth hkeep sound turned) ih

end

/-! ## The end of the block -/

/-- A closing brace closes the innermost block. -/
theorem outcome_brace (config : Config) {scopes : Scopes} (hblocks : scopes.blocks ≠ []) :
    outcome config ⟨.ofText ['\x7d'], scopes⟩ =
      outcome config ⟨.ofText [], scopes.pop .nowhere⟩ := by
  have hfront := sound_ofText ['\x7d']
  obtain ⟨r, closing, hsound, htext, hremarks, hturn⟩ :=
    turn_brace config hfront rfl (Mode.finds_brace (.inl rfl) (braces 0)) hblocks
  rw [outcome_of_true hfront hturn]
  apply outcome_here hsound htext
  rw [hremarks, kept_nil, Scopes.add_nil]
  exact Scopes.bare_pop_congr rfl _ _

/-- A source that is read comes to its items in a block that was opened before it and is closed after
it. -/
theorem outcome_enclosed {source : Text} {document : Document} (outer : Scopes) (block : OpenBlock)
    (hdepth : max config.maxDepth 0 + (outer.blocks.length + 1 : Nat) ≤ config'.maxDepth)
    (hkeep : config'.keepComments = config.keepComments)
    (h : Document.ofText config source = .ok document) :
    outcome config' ⟨.ofText (source ++ '\n' :: ['\x7d']), outer.push block⟩ =
      outcome config' ⟨.ofText [], ((outer.push block).add document.children).pop .nowhere⟩ := by
  obtain ⟨T, hcomes, hscopes⟩ := Document.comes_of_ofText h
  have hinside : Comes config' (Session.inside ⟨.ofText source, .empty⟩ outer block)
      (T.inside outer block) := hcomes.inside hdepth hkeep
  have hfront : Session.inside ⟨.ofText source, .empty⟩ outer block = ⟨.ofText source, outer.push block⟩ := by
    rw [Session.inside, Scopes.empty, Scopes.inside_top, Scopes.add_nil]
  have hend : (T.inside outer block).scopes = (outer.push block).add document.children := by
    rw [Session.inside, hscopes, Scopes.inside_top]
  rw [hfront] at hinside
  have hclosed : outcome config' ⟨.ofText (source ++ '\n' :: ['\x7d']), outer.push block⟩ = _ :=
    outcome_continued hinside (Document.lands_ofText source ['\x7d']) rfl (.inl (opens_brace []))
  rw [hend] at hclosed
  have hblocks : ((outer.push block).add document.children).blocks ≠ [] := List.cons_ne_nil _ _
  exact hclosed.trans (outcome_brace config' hblocks)

end Grammar

/-- The declaration of the plain name `k`, with a colon and nothing after it. -/
def Declaration.plain : Declaration :=
  ⟨.expression ⟨⟨['k'], none, [], .nowhere⟩, [], [], .nowhere⟩, true, none, none, .nowhere⟩

theorem Declaration.written_plain : plain.Written := by
  have hspelled : Mode.declaration.Spells .ident ['k'] := ⟨[], rfl⟩
  refine ⟨⟨⟨.bare hspelled, ?_⟩, ?_, ?_, rfl⟩, ?_, ?_, ?_, ?_⟩ <;> simp [plain]

namespace Document

variable {config : Config} {source : Text} {document : Document}

/-- A source that is read is read inside a block, too, where the limit allows one block more: the
declaration of the block is the only item, and it holds the items of the source, up to spans. -/
theorem ofText_enclosed (h : ofText config source = .ok document) :
    ∃ enclosed, ofText ⟨max config.maxDepth 0 + 1, config.keepComments⟩
        ("k: \x7b\n".toList ++ source ++ "\n\x7d".toList) = .ok enclosed ∧
      enclosed.bare = ⟨[.container .plain ⟨true, .nowhere⟩ (Item.bareAll document.children)], .nowhere⟩ := by
  generalize hdeeper : (⟨max config.maxDepth 0 + 1, config.keepComments⟩ : Config) = deeper
  have hdepth : max config.maxDepth 0 + 1 ≤ deeper.maxDepth :=
    Int.le_of_eq (congrArg Config.maxDepth hdeeper)
  have hkeep : deeper.keepComments = config.keepComments :=
    (congrArg Config.keepComments hdeeper).symm
  have hone : ((Scopes.empty.blocks.length + 1 : Nat) : Int) ≤ deeper.maxDepth := by
    simp only [Scopes.empty, List.length_nil]
    omega
  -- The first line opens the block, the source fills it, and the brace closes it.
  have hopening : Taken deeper [Declaration.plain.openingSource] (Scopes.empty.push (opened .plain)) :=
    .line .nil (takes_opening Declaration.written_plain hone)
  have hfilled := outcome_enclosed Scopes.empty (opened .plain) hdepth hkeep h
  rw [outcome_nil deeper rfl] at hfilled
  have hread := outcome_taken hopening _ (by rw [hfilled]; simp)
  have hsource : [Declaration.plain.openingSource].reverse.flatMap (· ++ ['\n']) ++
      (source ++ '\n' :: ['\x7d']) = "k: \x7b\n".toList ++ source ++ "\n\x7d".toList := by
    rw [List.append_assoc]
    rfl
  rw [hfilled, hsource] at hread
  have htop := outcome_ofText deeper ("k: \x7b\n".toList ++ source ++ "\n\x7d".toList)
  rw [hread] at htop
  obtain ⟨enclosed, henclosed, hbare⟩ := Option.map_eq_some_iff.mp htop.symm
  refine ⟨enclosed, except_toOption_eq_some.mp henclosed, ?_⟩
  rw [Document.bare, hbare, Scopes.pop_add_push]
  rfl

/-- A statement without a line end, with a comment after it, where no block may stand. -/
theorem ofText_enclosed_shallow :
    ∃ document enclosed, ofText ⟨-1, true⟩ "a -> b: 1 # c".toList = .ok document ∧
      ofText ⟨1, true⟩ "k: \x7b\na -> b: 1 # c\n\x7d".toList = .ok enclosed ∧
      enclosed.bare = ⟨[.container .plain ⟨true, .nowhere⟩ (Item.bareAll document.children)], .nowhere⟩ := by
  obtain ⟨document, hdocument⟩ := exists_ok_of_isOk
    (x := ofText ⟨-1, true⟩ "a -> b: 1 # c".toList) (by decide +kernel)
  obtain ⟨enclosed, henclosed, hbare⟩ := ofText_enclosed hdocument
  exact ⟨document, enclosed, hdocument, henclosed, hbare⟩

end Document

end DiagramText
