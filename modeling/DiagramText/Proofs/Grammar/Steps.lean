import DiagramText.Proofs.Grammar.Continuation

/-!
# What a turn can do

A turn in a settled session does one of five things: it consumes a terminator,
comes to the end, closes a block, adds an item, or opens a block
(`Grammar.Acts`).  Or it fails in one of five ways (`Grammar.Breaks`): the
source ends inside a block, a closing brace stands outside of all blocks, no
token can be read after a closing brace, no statement is read, or a block is one
too many in another.

Whatever holds of the scopes after any of these holds after all turns, and what
each of them keeps is kept to the end of the source (`Scopes.Invariant.comes`),
or up to the session in which the turns fail (`turns_breaks`).  So all items of
a document that was read are written (`Document.written_of_ofText`).
-/

namespace DiagramText

open Grammar Reader

namespace Grammar

/-- What a turn makes of a settled session with this token ahead, and whether another turn
follows. -/
inductive Acts (config : Config) (token : Token) (S : Session) : Bool → Session → Prop
  | terminator (kind : token.kind = .terminator) :
      Acts config token S true ⟨S.reader.consumed, S.scopes⟩
  | stop (eof : token.kind = .eof) (blocks : S.scopes.blocks = []) : Acts config token S false S
  | close {r : Reader} (brace : token.isPunct '\x7d' = true) (blocks : S.scopes.blocks ≠ [])
      (finished : finishBlock S.reader.consumed = .ok () r) :
      Acts config token S true ⟨r, S.scopes.pop token.span⟩
  | item {item : Item} {r : Reader} (brace : ¬ token.isPunct '\x7d' = true)
      (read : statement S.reader = .ok (.item item) r) :
      Acts config token S true ⟨r, S.scopes.add [item]⟩
  | opening {target : Target} {label : Option Label} {brace : Token} {r : Reader}
      (other : ¬ token.isPunct '\x7d' = true)
      (read : statement S.reader = .ok (.opening target label brace) r)
      (allowed : (S.scopes.blocks.length + 1 : Nat) ≤ config.maxDepth) :
      Acts config token S true ⟨r, S.scopes.push ⟨brace, target, label, []⟩⟩

/-- How a turn fails in a settled session with this token ahead, and what it leaves. -/
inductive Breaks (config : Config) (token : Token) (S : Session) : Fault → Session → Prop
  | unclosed {block : OpenBlock} {outer : List OpenBlock} (eof : token.kind = .eof)
      (blocks : S.scopes.blocks = block :: outer) :
      Breaks config token S (.malformed (.unclosedBlock block.brace.span)) S
  | stray (brace : token.isPunct '\x7d' = true) (blocks : S.scopes.blocks = []) :
      Breaks config token S (.malformed (.unexpected "declaration".toList ["import".toList] token)) S
  | close {fault : Fault} {r : Reader} (brace : token.isPunct '\x7d' = true)
      (blocks : S.scopes.blocks ≠ []) (failed : finishBlock S.reader.consumed = .error fault r) :
      Breaks config token S fault ⟨r, S.scopes.pop token.span⟩
  | statement {fault : Fault} {r : Reader} (failed : statement S.reader = .error fault r) :
      Breaks config token S fault ⟨r, S.scopes⟩
  | tooDeep {target : Target} {label : Option Label} {brace : Token} {r : Reader}
      (read : statement S.reader = .ok (.opening target label brace) r)
      (deep : config.maxDepth < S.scopes.blocks.length + 1) :
      Breaks config token S (.malformed (.tooDeep config.maxDepth brace.span)) ⟨r, S.scopes⟩

variable {config : Config} {S T : Session} {token : Token} {again : Bool} {fault : Fault}

/-- A turn does one of the five, or fails in one of the five ways. -/
theorem act_ends (hS : Settled S token) :
    Ends (act config token) S (Acts config token S) (Breaks config token S) := by
  by_cases hterminator : token.kind = .terminator
  · exact (ends_of_ok (act_terminator hS hterminator)).mpr (.terminator hterminator)
  by_cases heof : token.kind = .eof
  · have hact : act config token S = _ := act_eof heof
    split at hact
    · next hblocks => exact (ends_of_ok hact).mpr (.stop heof hblocks)
    · next hblocks => exact (ends_of_error hact).mpr (.unclosed heof hblocks)
  by_cases hbrace : token.isPunct '\x7d' = true
  · have hact : act config token S = _ := act_brace hbrace
    split at hact
    · next hblocks => exact (ends_of_error hact).mpr (.stray hbrace hblocks)
    · next hblocks =>
        have hopen : S.scopes.blocks ≠ [] := by simp [hblocks]
        refine (ends_congr hact).mpr (ends_bind.mpr ?_)
        rw [ends_congr (closeBlock_of_advance (hS.shows.advance_eq heof)), ends_parsing]
        cases hfinish : finishBlock S.reader.consumed with
        | ok value r => exact (ends_of_ok hfinish).mpr (.close hbrace hopen hfinish)
        | error fault r => exact (ends_of_error hfinish).mpr (.close hbrace hopen hfinish)
  · refine (ends_congr (act_statement hterminator heof hbrace)).mpr ?_
    refine ends_bind.mpr (ends_parsing.mpr ?_)
    cases hread : statement S.reader with
    | error fault r => exact (ends_of_error hread).mpr (.statement hread)
    | ok read r =>
        refine (ends_of_ok hread).mpr ?_
        cases read with
        | item item => exact .item hbrace hread
        | opening target label brace =>
            have hopen := openBlock_eq config ⟨brace, target, label, []⟩ ⟨r, S.scopes⟩
            refine ends_bind.mpr ?_
            split at hopen
            · next hdeep => exact (ends_of_error hopen).mpr (.tooDeep hread hdeep)
            · next hallowed =>
                exact (ends_of_ok hopen).mpr (.opening hbrace hread (by simpa using hallowed))

/-- A turn looks ahead, places the comments, and does one of the five. -/
theorem acts_of_turn (hS : S.reader.Sound) (h : turn config S = .ok again T) :
    ∃ token r, peek .declaration S.reader = .ok token r ∧
      Settled (settled config r S.scopes) token ∧
      Acts config token (settled config r S.scopes) again T := by
  cases hpeek : peek .declaration S.reader with
  | error fault r => cases (turn_of_peek_error hpeek).symm.trans h
  | ok token r =>
      have hsettled : Settled (settled config r S.scopes) token :=
        settled_of_sees ((peek_spec hS .declaration).ok hpeek)
      exact ⟨token, r, rfl, hsettled, (act_ends hsettled).ok ((turn_of_peek hpeek).symm.trans h)⟩

/-- What looking ahead keeps while the comments are placed, and each of the five keeps, is kept by
the turns up to the end of the source.  The induction is on the turns. -/
theorem Comes.keeps {P : Session → Prop}
    (hpeek : ∀ S token r, S.reader.Sound → peek .declaration S.reader = .ok token r → P S →
      P (settled config r S.scopes))
    (hacts : ∀ S token again T, Settled S token → Acts config token S again T → P S → P T)
    (h : Comes config S T) (hS : P S) : P T := by
  induction h with
  | stop sound peeked _ => exact hpeek _ _ _ sound peeked hS
  | turn sound turned _ ih =>
      obtain ⟨token, r, hpeeked, hsettled, hturn⟩ := acts_of_turn sound turned
      exact ih (hacts _ _ _ _ hsettled hturn (hpeek _ _ _ sound hpeeked hS))

/-- Where the turns fail, what looking ahead and each turn keep holds of the session in which one of
them fails: either it cannot look ahead, or it fails in one of the five ways.  The induction is on
what is ahead. -/
theorem turns_breaks {P : Session → Prop} {Q : Fault → Session → Prop}
    (hpeek : ∀ S token r, S.reader.Sound → peek .declaration S.reader = .ok token r → P S →
      P (settled config r S.scopes))
    (hacts : ∀ S token again T, Settled S token → Acts config token S again T → P S → P T)
    (hblind : ∀ S fault r, S.reader.Sound → P S → peek .declaration S.reader = .error fault r →
      Q fault ⟨r, S.scopes⟩)
    (hbreaks : ∀ S token fault T, Settled S token → P S → Breaks config token S fault T → Q fault T)
    (hsound : S.reader.Sound) (hS : P S) :
    Ends (turns config) S (fun _ _ => True) Q := by
  generalize hn : S.reader.ahead = n
  induction n using Nat.strongRecOn generalizing S with
  | ind n ih =>
      cases hturn : turn config S with
      | ok again T =>
          obtain ⟨hsound', hless⟩ := (turn_spec hsound).ok hturn
          obtain ⟨token, r, hpeeked, hsettled, hturned⟩ := acts_of_turn hsound hturn
          have hT := hacts _ _ _ _ hsettled hturned (hpeek _ _ _ hsound hpeeked hS)
          cases again with
          | false => exact (ends_of_ok (turns_of_false hturn)).mpr trivial
          | true =>
              rw [ends_congr (turns_of_true hsound hturn)]
              exact ih _ (hn ▸ hless rfl) hsound' hT rfl
      | error fault T =>
          refine (ends_of_error (turns_of_error hturn)).mpr ?_
          cases hpeeked : peek .declaration S.reader with
          | error found r =>
              cases (turn_of_peek_error hpeeked).symm.trans hturn
              exact hblind _ _ _ hsound hS hpeeked
          | ok token r =>
              have hsettled : Settled (settled config r S.scopes) token :=
                settled_of_sees ((peek_spec hsound .declaration).ok hpeeked)
              have hbreak := (act_ends hsettled).error ((turn_of_peek hpeeked).symm.trans hturn)
              exact hbreaks _ _ _ _ hsettled (hpeek _ _ _ hsound hpeeked hS) hbreak

namespace Scopes

/-- What placing comments, adding what a statement read, and opening and closing blocks keep. -/
structure Invariant (config : Config) (I : Scopes → Prop) : Prop where
  comments : ∀ scopes comments, (∀ comment ∈ comments, Token.IsComment comment) → I scopes →
    I (scopes.add (commentItems config comments))
  item : ∀ scopes item, item.isLeaf = true → (∀ maxDepth depth, item.Written maxDepth depth) →
    I scopes → I (scopes.add [item])
  opening : ∀ scopes target label brace, target.Written →
    (∀ found, label = some found → found.Written) →
    (scopes.blocks.length + 1 : Nat) ≤ config.maxDepth → I scopes →
    I (scopes.push ⟨brace, target, label, []⟩)
  close : ∀ scopes closing, I scopes → I (scopes.pop closing)

variable {I : Scopes → Prop}

/-- Each of the five things that a turn can do keeps the invariant. -/
theorem Invariant.acts (hI : Invariant config I) (hS : Settled S token)
    (h : Acts config token S again T) (hscopes : I S.scopes) : I T.scopes := by
  cases h with
  | terminator => exact hscopes
  | stop => exact hscopes
  | close => exact hI.close _ _ hscopes
  | item _ read =>
      have hwritten := ((statement_spec hS.sound).ok read).2
      exact hI.item _ _ ((statement_leaf S.reader).ok read _ rfl) hwritten.1 hscopes
  | opening _ read allowed =>
      have hwritten := ((statement_spec hS.sound).ok read).2
      exact hI.opening _ _ _ _ hwritten.1 hwritten.2 allowed hscopes

/-- What each turn keeps holds at the end of the source. -/
theorem Invariant.comes (hI : Invariant config I) (h : Comes config S T) (hscopes : I S.scopes) :
    I T.scopes := by
  refine h.keeps (P := fun S => I S.scopes) ?_ ?_ hscopes
  · intro S token r hsound hpeeked hS
    exact hI.comments _ _ ((peek_spec hsound .declaration).ok hpeeked).sound.comments hS
  · intro S token again T hsettled hacts hS
    exact hI.acts hsettled hacts hS

end Scopes

end Grammar

namespace Document

/-- The scopes that a source leaves when it is read: no block is open, and the items at the top are
those of the document. -/
theorem comes_of_ofText {config : Config} {source : Text} {document : Document}
    (h : ofText config source = .ok document) :
    ∃ T, Comes config ⟨.ofText source, .empty⟩ T ∧ T.scopes = ⟨document.children, []⟩ := by
  obtain ⟨T, hturns, rfl⟩ := exists_read h
  obtain ⟨hcomes, hblocks⟩ := (turns_comes (sound_ofText source)).ok hturns
  refine ⟨T, hcomes, ?_⟩
  rw [← hblocks]
  rfl

/-- The syntax error with which a source was not read, and what was completed before it. -/
def failed? : Except Failure Document → Option (SyntaxError × Document)
  | .error (.malformed error completed) => some (error, completed)
  | _ => none

theorem error_of_failed? {x : Except Failure Document} {error : SyntaxError} {completed : Document}
    (h : failed? x = some (error, completed)) : x = .error (.malformed error completed) := by
  unfold failed? at h
  split at h
  · cases h
    rfl
  · cases h

/-- A check of what was completed before a syntax error. -/
theorem exists_failed_of_any {x : Except Failure Document} {p : SyntaxError × Document → Bool}
    (h : (failed? x).any p = true) :
    ∃ error completed, x = .error (.malformed error completed) ∧ p (error, completed) = true := by
  cases hfound : failed? x with
  | none =>
      rw [hfound] at h
      cases h
  | some found =>
      rw [hfound] at h
      exact ⟨found.1, found.2, error_of_failed? hfound, h⟩

end Document

namespace Grammar

/-- What the open blocks hold is written, and they are no more than the limit allows. -/
def OpenBlock.AllWritten (maxDepth : Int) : List OpenBlock → Prop
  | [] => True
  | block :: outer =>
    (block.target.Written ∧ ∀ found, block.label = some found → found.Written) ∧
      (outer.length + 1 : Nat) ≤ maxDepth ∧
      (∀ item ∈ block.children, item.Written maxDepth (outer.length + 1)) ∧
      AllWritten maxDepth outer

namespace Scopes

/-- What stands in the scopes is written. -/
structure Written (maxDepth : Int) (scopes : Scopes) : Prop where
  top : ∀ item ∈ scopes.top, item.Written maxDepth 0
  blocks : OpenBlock.AllWritten maxDepth scopes.blocks

variable {maxDepth : Int} {scopes : Scopes}

/-- Adding items that are written leaves scopes written. -/
theorem Written.add (h : scopes.Written maxDepth) {items : List Item}
    (hitems : ∀ item ∈ items, item.Written maxDepth scopes.blocks.length) :
    (scopes.add items).Written maxDepth := by
  obtain ⟨top, blocks⟩ := scopes
  cases blocks with
  | nil => exact ⟨List.forall_mem_append.mpr ⟨h.top, hitems⟩, trivial⟩
  | cons block outer =>
      obtain ⟨hhead, hdeep, hchildren, houter⟩ := h.blocks
      exact ⟨h.top, hhead, hdeep, List.forall_mem_append.mpr ⟨hchildren, hitems⟩, houter⟩

/-- Opening a block that is written leaves scopes written. -/
theorem Written.push (h : scopes.Written maxDepth) {target : Target} {label : Option Label}
    (brace : Token) (htarget : target.Written) (hlabel : ∀ found, label = some found → found.Written)
    (hdeep : (scopes.blocks.length + 1 : Nat) ≤ maxDepth) :
    (scopes.push ⟨brace, target, label, []⟩).Written maxDepth :=
  ⟨h.top, ⟨htarget, hlabel⟩, hdeep, by simp, h.blocks⟩

/-- Closing a block leaves scopes written. -/
theorem Written.pop (h : scopes.Written maxDepth) (closing : Span) :
    (scopes.pop closing).Written maxDepth := by
  obtain ⟨top, blocks⟩ := scopes
  cases blocks with
  | nil => exact h
  | cons block outer =>
      obtain ⟨⟨htarget, hlabel⟩, hdeep, hchildren, houter⟩ := h.blocks
      have hrest : Written maxDepth ⟨top, outer⟩ := ⟨h.top, houter⟩
      refine hrest.add (List.forall_mem_singleton.mpr ?_)
      have hdeclaration : Declaration.Written ⟨block.target, true, block.label, none,
          block.target.span.cover (block.brace.span.cover closing)⟩ :=
        ⟨htarget, hlabel, by simp, by simp, by simp⟩
      unfold OpenBlock.item
      rw [List.append_nil]
      exact .container hdeclaration rfl rfl rfl hdeep hchildren

/-- What a turn puts into the scopes is written. -/
theorem invariant_written (config : Config) : Invariant config (Written config.maxDepth) where
  comments scopes comments hcomments h := by
    refine h.add fun item hitem => ?_
    obtain ⟨comment, hcomment, rfl⟩ := mem_commentItems hitem
    exact .comment (hcomments comment hcomment)
  item scopes item _ hitem h := h.add (List.forall_mem_singleton.mpr (hitem _ _))
  opening scopes target label brace htarget hlabel hdeep h := h.push brace htarget hlabel hdeep
  close scopes closing h := h.pop closing

end Scopes

end Grammar

/-- Every item of a document that was read is written. -/
theorem Document.written_of_ofText {config : Config} {source : Text} {document : Document}
    (h : ofText config source = .ok document) :
    ∀ item ∈ document.children, item.Written config.maxDepth 0 := by
  obtain ⟨T, hcomes, hscopes⟩ := comes_of_ofText h
  have hempty : Scopes.empty.Written config.maxDepth := ⟨by simp [Scopes.empty], trivial⟩
  have hwritten := (Scopes.invariant_written config).comes hcomes hempty
  rw [hscopes] at hwritten
  exact hwritten.top

end DiagramText
