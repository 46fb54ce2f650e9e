import DiagramText.Proofs.Concatenation
import DiagramText.Proofs.Grammar.Opened
import DiagramText.Proofs.Grammar.Spans

/-!
# A further source that fails

Where a source that is read goes on with a line break and further text, and the
whole is not read, the tree of what was completed begins with the items of the
source (`Document.ofText_newline_failed`).

There is one proviso.  A statement hangs at the end of the source if only comments
stand behind it and the last of them takes the line break in (`Document.Hangs`).
It looks for its end in the further text, past the comments, and where no token
is to be found there it is lost (`Document.newline_failed_comment`).  So where a
statement hangs, both modes of the line have to find a token at the front of the
further text.

Nothing at the top is ever taken back: each turn adds to it, whether it succeeds
or fails (`Grammar.growth_top`).  Where a statement hangs, the turns on the whole
are followed to where the shorter source ends (`Grammar.shown_of_atEnd`).  Where
none does, they are the turns on the source with its line break, up to the one
that brings the end into sight (`Grammar.shown_of_comes`).
-/

namespace DiagramText

open Grammar Reader

namespace Grammar

namespace Scopes

variable (scopes : Scopes)

/-- What is added leaves what is at the top. -/
theorem top_add (items : List Item) : scopes.top <+: (scopes.add items).top := by
  obtain ⟨top, blocks⟩ := scopes
  cases blocks with
  | nil => exact List.prefix_append top items
  | cons block outer => exact List.prefix_refl top

/-- Where no block is open, what is added is at the top. -/
theorem mem_top_add {scopes : Scopes} {items : List Item} {item : Item}
    (h : (scopes.add items).blocks = []) (hitem : item ∈ items) : item ∈ (scopes.add items).top := by
  obtain ⟨top, blocks⟩ := scopes
  cases blocks with
  | nil => exact List.mem_append_right top hitem
  | cons block outer => cases h

/-- More items added leave at least as many at the top. -/
theorem top_add_mono {items items' : List Item} (h : items <+: items') :
    (scopes.add items).top <+: (scopes.add items').top := by
  obtain ⟨others, rfl⟩ := h
  rw [← add_add]
  exact top_add _ others

/-- Closing a block leaves what is at the top. -/
theorem top_pop (closing : Span) : scopes.top <+: (scopes.pop closing).top := by
  obtain ⟨top, blocks⟩ := scopes
  cases blocks with
  | nil => exact List.prefix_refl top
  | cons block outer => exact top_add ⟨top, outer⟩ _

/-- Open blocks leave what is at the top. -/
theorem top_unfinished : scopes.top <+: scopes.unfinished :=
  List.prefix_append _ _

end Scopes

/-- Turns take nothing back from the top. -/
theorem growth_top : Scopes.Growth fun before after => before.top <+: after.top where
  refl _ := List.prefix_refl _
  trans h h' := h.trans h'
  leaf scopes item _ := scopes.top_add [item]
  opening _ _ _ _ := List.prefix_refl _
  close scopes closing := scopes.top_pop closing

/-! ## What is shown after a failure -/

/-- The items that the session shows, when nothing more is read: those of its scopes and the comments
that were not placed. -/
def Session.shown (config : Config) (S : Session) : List Item :=
  (S.scopes.add (commentItems config S.reader.comments)).unfinished

variable {config : Config} {items : List Item} {S : Session}

/-- At the top of a settled session stand the comments behind what stood there, up to spans. -/
theorem top_settled (config : Config) (r : Reader) (scopes : Scopes) :
    (settled config r scopes).scopes.top.map (·.bare) =
      (scopes.bare.add (kept config r.remarks)).top := by
  rw [← bare_settled]
  rfl

/-- More comments behind the same scopes leave at least as much at the top. -/
theorem top_settled_mono {scopes scopes' : Scopes} {r r' : Reader} (hscopes : scopes'.bare = scopes.bare)
    (h : r.remarks <+: r'.remarks) :
    (settled config r scopes).scopes.top.map (·.bare) <+:
      (settled config r' scopes').scopes.top.map (·.bare) := by
  obtain ⟨later, hlater⟩ := h
  rw [top_settled, top_settled, hscopes, ← hlater, kept_append]
  exact Scopes.top_add_mono _ (List.prefix_append _ _)

/-- A reader that has entered a text still has the remarks from before. -/
theorem Enters.remarks {t : Text} {before : List Item} {r : Reader} (h : Enters t before r) :
    ∃ later, r.remarks = before ++ later := by
  cases h with
  | here _ _ remarks => exact ⟨[], by rw [remarks, List.append_nil]⟩
  | looked _ _ _ remarks => exact ⟨_, remarks⟩
  | ended _ _ _ remarks => exact ⟨_, remarks⟩

/-- Items at the top of what a reader passed are shown after all turns that fail, whether the first
look ahead fails or the comments are placed. -/
theorem shown_of_peek (h : Ends (peek .declaration) S.reader
      (fun _ r => items <+: (settled config r S.scopes).scopes.top.map (·.bare))
      fun _ r => items <+: (settled config r S.scopes).scopes.top.map (·.bare)) :
    Ends (turns config) S (fun _ _ => True) fun _ T => items <+: (T.shown config).map (·.bare) := by
  have hshown : ∀ T : Session, items <+: T.scopes.top.map (·.bare) →
      items <+: (T.shown config).map (·.bare) := by
    intro T hT
    exact hT.trans (((T.scopes.top_add _).trans (Scopes.top_unfinished _)).map _)
  have hturn : Ends (turn config) S (fun _ T => items <+: T.scopes.top.map (·.bare))
      fun _ T => items <+: (T.shown config).map (·.bare) := by
    cases hpeek : peek .declaration S.reader with
    | error fault r =>
        have hitems := h.error hpeek
        exact (ends_of_error (turn_of_peek_error hpeek)).mpr
          (hitems.trans ((Scopes.top_unfinished _).map _))
    | ok token r =>
        have hitems := h.ok hpeek
        refine (ends_congr (turn_of_peek hpeek)).mpr (((act_builds token).grows growth_top _).mono ?_ ?_)
        · intro _ T hT
          exact hitems.trans (hT.map _)
        · intro _ T hT
          exact hshown T (hitems.trans (hT.map _))
  unfold turns turnsUpTo
  apply hturn.bind
  intro again T hT
  cases again with
  | false => trivial
  | true =>
      have hlater := turnsUpTo_grows growth_top (fun scopes comments =>
        scopes.top_add (commentItems config comments)) S.reader.ahead T
      apply hlater.mono
      · intro _ _ _
        trivial
      · intro _ U hU
        exact hshown U (hT.trans (hU.map _))

/-- At the end of the shorter source its items are shown from then on. -/
theorem shown_of_atEnd {t : Text} {T U : Session} (hopens : Opens t) (h : AtEnd config t U T) :
    Ends (turns config) U (fun _ _ => True)
      fun _ V => T.scopes.top.map (·.bare) <+: (V.shown config).map (·.bare) := by
  obtain ⟨sound, peeked, eof, lands, scopes⟩ := h
  rename_i E token r
  have hsees := (peek_spec sound .declaration).ok peeked
  -- What was passed on the way to the end comes first in what the other session passes.
  apply shown_of_peek
  cases lands with
  | entered hfurther _ text enters =>
      obtain ⟨_, _, _, hremarks, _⟩ := hsees.of_finds (text ▸ Mode.finds_nil)
      rw [List.append_nil] at hremarks
      have hpassed : r.remarks <+: U.reader.remarks := by
        obtain ⟨later, hlater⟩ := enters.remarks
        exact ⟨later, by rw [hremarks, hlater]⟩
      apply ((Looks.peek .declaration).comments U.reader).both
      intro r' hcomments
      exact top_settled_mono scopes (hpassed.trans (hcomments.map _))
  | aligned h =>
      have hlook := h.peek_eof (.inl rfl) hsees eof
      apply hlook.mono
      · intro token' r' hr'
        cases hr'.2 with
        | same aligned _ _ => exact top_settled_mono scopes ⟨[], by rw [aligned.remarks, List.append_nil]⟩
        | last _ aligned _ _ _ => exact top_settled_mono scopes ⟨[], by rw [aligned.remarks, List.append_nil]⟩
        | crossed _ crossed _ =>
            obtain ⟨_, later, _, _, _, _, hlater⟩ := crossed.finds
            exact top_settled_mono scopes ⟨later, hlater.symm⟩
      · rintro _ _ ⟨_, hsome, hlost⟩
        obtain rfl := Option.some.inj hsome
        exact absurd hopens hlost

/-! ## Where nothing hangs at the end -/

variable {source further : Text} {T : Session} {token : Token} {r r' : Reader}

/-- What a text that ends with a line feed has left ends with one, too. -/
theorem Session.Standing.lined (h : S.Standing source) (hended : source.Ended) : S.reader.Lined := by
  refine ⟨h.laid.logs.sound, ?_⟩
  rw [text_eq_front, h.laid.logs.placed.rest]
  exact hended.suffix (List.drop_suffix _ _)

/-- Comments that were collected are shown with what stands in the scopes. -/
theorem shown_of_collected (U : Session) (h : r.comments <+: U.reader.comments) :
    Ends (turns config) U (fun _ _ => True)
      fun _ V => (settled config r U.scopes).scopes.top.map (·.bare) <+:
        (V.shown config).map (·.bare) := by
  apply shown_of_peek
  apply ((Looks.peek .declaration).comments U.reader).both
  intro _ hlater
  exact top_settled_mono rfl ((h.trans hlater).map _)

/-- Where the end of a block comes to the end of the text, the same comments are passed when the text
goes on. -/
theorem finishBlock_extend_comments (further : Text) (hr : r.Lined) (hahead : r.lookahead = none)
    (hrun : finishBlock r = .ok () r') (hspent : r'.Spent) :
    Ends finishBlock (r.extend further) (fun _ s => r'.comments <+: s.comments)
      fun _ s => r'.comments <+: s.comments := by
  unfold finishBlock at hrun ⊢
  obtain ⟨token, r₁, hpeek, hrun⟩ := bind_eq_ok.mp hrun
  have hshows := ((peek_lined _ _ hr).ok hpeek).1
  by_cases hterminator : token.kind = .terminator
  · -- A terminator would have been consumed.
    rw [if_pos hterminator, bind_ok (hshows.advance_eq (by simp [hterminator]))] at hrun
    cases hrun
    exact absurd hspent (not_spent_of_standing rfl)
  rw [if_neg hterminator] at hrun
  cases hrun
  refine (peek_extend_comments hr.sound hr.ended hpeek (not_spent_of_standing hahead)
    (hspent.eof hshows)).bind ?_
  intro next s hcomments
  have hlooks : Looks (if next.kind = .terminator then do
      let _ ← Reader.advance .declaration
    else pure () : Parser Unit) := .ite ((Looks.advance _).bind fun _ => .pure _) (.pure _)
  exact (hlooks.comments s).both fun _ hlater => hcomments.trans hlater

/-- A session that is settled before the end of the shorter text is settled in the longer one. -/
theorem Settled.extend {E : Session} (hE : Settled E token) (hended : E.reader.text.Ended)
    (hkind : token.kind ≠ .eof) (further : Text) : Settled (E.extend further) token where
  sound := hE.sound.extend hended (fun hspent => hkind (hspent.eof hE.shows)) further
  shows := hE.shows.extend further
  comments := hE.comments

/-- Where a block is closed and the end of the text comes into sight, the block and the comments behind
it are shown when the text goes on. -/
theorem shown_of_close {E : Session} (hE : Settled E token) (hended : E.reader.text.Ended)
    (hbrace : token.isPunct '\x7d' = true) (hblocks : E.scopes.blocks ≠ [])
    (hfinished : finishBlock E.reader.consumed = .ok () r) (hspent : r.Spent) :
    Ends (turns config) (E.extend further) (fun _ _ => True) fun _ V =>
      (settled config r (E.scopes.pop token.span)).scopes.top.map (·.bare) <+:
        (V.shown config).map (·.bare) := by
  have hkind := Token.kind_ne_eof_of_isPunct hbrace
  have hE' := hE.extend hended hkind further
  have hconsumed : E.reader.consumed.Lined := Lined.consumed ⟨hE.sound, hended⟩ hE.shows
  have hcomments := finishBlock_extend_comments further hconsumed rfl hfinished hspent
  have hturn : turn config (E.extend further) = (closeBlock >>= fun _ => pure true) (E.extend further) := by
    rw [hE'.turn_eq, act_brace hbrace]
    split
    · next hnone => exact absurd hnone hblocks
    · rfl
  have hclose : closeBlock (E.extend further) =
      parsing finishBlock ⟨E.reader.consumed.extend further, E.scopes.pop token.span⟩ :=
    closeBlock_of_advance (hE'.shows.advance_eq hkind)
  cases hrun : finishBlock (E.reader.consumed.extend further) with
  | ok value s =>
      have hlater : r.comments <+: s.comments := hcomments.ok hrun
      rw [bind_ok (hclose.trans (parsing_ok hrun))] at hturn
      rw [ends_congr (turns_of_true hE'.sound hturn)]
      exact shown_of_collected ⟨s, E.scopes.pop token.span⟩ hlater
  | error fault s =>
      have hlater : r.comments <+: s.comments := hcomments.error hrun
      rw [bind_error (hclose.trans (parsing_error hrun))] at hturn
      apply (ends_of_error (turns_of_error hturn)).mpr
      exact (top_settled_mono rfl (hlater.map _)).trans ((Scopes.top_unfinished _).map _)

/-- From a reader that sees the end the turns have only the comments to place. -/
theorem Comes.of_spent (h : Comes config S T) (hspent : S.reader.Spent) :
    ∃ r : Reader, r.remarks = S.reader.remarks ∧ T = settled config r S.scopes := by
  cases h with
  | stop sound peeked eof =>
      have hsees := (peek_spec sound .declaration).ok peeked
      have hnil := hspent.text sound
      obtain ⟨_, _, _, hremarks, _⟩ := hsees.of_finds (hnil ▸ Mode.finds_nil)
      rw [List.append_nil] at hremarks
      exact ⟨_, hremarks, rfl⟩
  | turn sound turned later =>
      obtain ⟨token, r, hpeek, _⟩ := acts_of_turn sound turned
      have heof := ((peek_spent _ _ ⟨sound, hspent⟩).ok hpeek).1
      exact absurd heof (ne_eof_of_turn hpeek turned)

/-- Where a turn brings the end of the text into sight and no block stays open, it read a statement that
hangs or closed a block, and what the turns come to is shown when the text goes on. -/
theorem shown_of_last {E : Session} (hE : Settled E token) (hstanding : E.Standing source)
    (hended : source.Ended) (hacts : Acts config token E true S) (hspent : S.reader.Spent)
    (hlater : Comes config S T) (hblocks : T.scopes.blocks = [])
    (hhangs : ∀ item ∈ T.scopes.top, item.isLeaf = true → ¬ Unended source (Node.item item).span) :
    Ends (turns config) (E.extend further) (fun _ _ => True)
      fun _ V => T.scopes.top.map (·.bare) <+: (V.shown config).map (·.bare) := by
  obtain ⟨s, hremarks, rfl⟩ := hlater.of_spent hspent
  cases hacts with
  | terminator => exact absurd hspent (not_spent_of_standing rfl)
  | @close r brace blocks finished =>
      rw [top_settled, hremarks, ← top_settled]
      exact shown_of_close hE (hstanding.lined hended).ended brace blocks finished hspent
  | @item item r brace read =>
      have hcloses := (statement_closes hE.sound hstanding.laid.logs.placed hE.shows).ok read
      have hahead : r.lookahead ≠ none := fun hnone => not_spent_of_standing hnone hspent
      have hunended : Unended source (Node.item item).span :=
        hcloses.unended hahead (hspent.text hcloses.stretches.moves.sound)
      have hmem : item ∈ ((E.scopes.add [item]).add (commentItems config s.comments)).top := by
        have hnone : ((E.scopes.add [item]).add (commentItems config s.comments)).blocks = [] := hblocks
        rw [Scopes.add_add] at hnone ⊢
        exact Scopes.mem_top_add hnone List.mem_cons_self
      have hleaf := (statement_leaf E.reader).ok read item rfl
      exact absurd hunended (hhangs item hmem hleaf)
  | opening =>
      have hlength := congrArg List.length hblocks
      rw [settled, Scopes.length_blocks_add] at hlength
      cases hlength

/-- The turns on a text that goes on show what the shorter text came to, unless a statement at its end
hangs.  The induction is on the turns. -/
theorem shown_of_comes (h : Comes config S T) (hstanding : S.Standing source) (hended : source.Ended)
    (hspent : ¬ S.reader.Spent) (hblocks : T.scopes.blocks = [])
    (hhangs : ∀ item ∈ T.scopes.top, item.isLeaf = true → ¬ Unended source (Node.item item).span) :
    Ends (turns config) (S.extend further) (fun _ _ => True)
      fun _ V => T.scopes.top.map (·.bare) <+: (V.shown config).map (·.bare) := by
  induction h with
  | @stop S token r sound peeked eof =>
      have hS := hstanding.lined hended
      apply shown_of_peek
      apply (peek_extend_comments hS.sound hS.ended peeked hspent eof).both
      intro _ hlater
      exact top_settled_mono rfl (hlater.map _)
  | @turn S S₁ T sound turned later ih =>
      have hS := hstanding.lined hended
      obtain ⟨token, r, hpeek, hsettled, hacts⟩ := acts_of_turn sound turned
      have hstanding₁ := (hstanding.settled hpeek).acts hsettled hacts
      by_cases hspent₁ : S₁.reader.Spent
      · have hpeek' : peek .declaration (S.extend further).reader = .ok token (r.extend further) :=
          peek_extend hS.sound hS.ended hpeek (ne_eof_of_turn hpeek turned)
        rw [ends_congr (turns_settled (hS.sound.extend hS.ended hspent further) hpeek')]
        exact shown_of_last hsettled (hstanding.settled hpeek) hended hacts hspent₁ later hblocks hhangs
      · rw [ends_congr (turns_of_true (hS.sound.extend hS.ended hspent further)
          (turn_extend further hS turned hspent₁))]
        exact ih hstanding₁ hspent₁ hblocks hhangs

end Grammar

namespace Document

variable {config : Config} {source further : Text} {document completed : Document} {error : SyntaxError}

/-- Nothing ends the last statement of the source, not even a line break behind the source: only comments
stand behind the statement, and the last of them takes the line break in. -/
def Hangs (config : Config) (source : Text) : Prop :=
  ∃ whole item, ofText config (source ++ ['\n']) = .ok whole ∧ item ∈ whole.children ∧
    item.isLeaf = true ∧ Unended (source ++ ['\n']) (Node.item item).span

/-- Where both modes of the line find a token at the front of the further text, what was read of the
source is shown, however the further text goes on. -/
theorem shown_of_opens (h : ofText config source = .ok document) (hopens : Opens further) :
    Ends (turns config) ⟨.ofText (source ++ '\n' :: further), .empty⟩ (fun _ _ => True)
      fun _ V => Item.bareAll document.children <+: (V.shown config).map (·.bare) := by
  obtain ⟨T, hcomes, hscopes⟩ := comes_of_ofText h
  obtain ⟨U, hend, hturns⟩ : ∃ U, AtEnd config further U T ∧
      turns config ⟨.ofText (source ++ '\n' :: further), .empty⟩ = turns config U :=
    exists_atEnd hcomes (lands_ofText source further) rfl (.inl hopens)
  have hshown := shown_of_atEnd hopens hend
  rw [hscopes, ← Item.bareAll_eq_map] at hshown
  exact (ends_congr hturns).mpr hshown

/-- Of nothing an empty document is read. -/
theorem ofText_nil (config : Config) : ofText config [] = .ok (ofItems [] []) := by
  obtain ⟨maxDepth, keepComments⟩ := config
  cases keepComments <;> rfl

/-- Where no statement hangs at the end of the source, what was read of it is shown, whatever the further
text is: with its line break the source is read as it is without. -/
theorem shown_of_not_hangs (h : ofText config source = .ok document) (hhangs : ¬ Hangs config source) :
    Ends (turns config) ⟨.ofText (source ++ '\n' :: further), .empty⟩ (fun _ _ => True)
      fun _ V => Item.bareAll document.children <+: (V.shown config).map (·.bare) := by
  obtain ⟨hread, hchildren⟩ := ofText_newline h []
  obtain ⟨whole, hwhole⟩ := hread.mpr ⟨_, ofText_nil config⟩
  have hsame : Item.bareAll document.children = Item.bareAll whole.children := by
    rw [hchildren whole _ hwhole (ofText_nil config)]
    exact (List.append_nil _).symm
  have hlonger : (⟨.ofText (source ++ '\n' :: further), .empty⟩ : Session) =
      Session.extend further ⟨.ofText (source ++ ['\n']), .empty⟩ := by
    rw [Session.extend, extend_ofText, List.append_assoc, List.singleton_append]
  obtain ⟨T, hcomes, hscopes⟩ := comes_of_ofText hwhole
  have htop : Item.bareAll document.children = T.scopes.top.map (·.bare) := by
    rw [hsame, hscopes, Item.bareAll_eq_map]
  rw [hlonger, htop]
  apply shown_of_comes hcomes (.ofText _) (Text.ended_append source) (not_spent_of_standing rfl)
  · rw [hscopes]
  · rw [hscopes]
    intro item hitem hleaf hunended
    exact hhangs ⟨whole, item, hwhole, hitem, hleaf, hunended⟩

/-- Where a source that is read goes on with a line break and further text, and the whole is not read,
what was completed begins with the items of the source; if the last statement of the source hangs, then
provided that both modes of the line find a token at the front of the further text. -/
theorem ofText_newline_failed (h : ofText config source = .ok document)
    (hopens : Hangs config source → Opens further)
    (hfailed : ofText config (source ++ '\n' :: further) = .error (.malformed error completed)) :
    Item.bareAll document.children <+: Item.bareAll completed.children := by
  have hshown : Ends (turns config) ⟨.ofText (source ++ '\n' :: further), .empty⟩ (fun _ _ => True)
      fun _ V => Item.bareAll document.children <+: (V.shown config).map (·.bare) := by
    by_cases hhangs : Hangs config source
    · exact shown_of_opens h (hopens hhangs)
    · exact shown_of_not_hangs h hhangs
  obtain ⟨V, hturns, rfl⟩ := exists_failed hfailed
  have hitems := hshown.error hturns
  rwa [← Item.bareAll_eq_map] at hitems

/-- A string is never closed in the further text: after a statement that hangs a block is opened before
it, and where the line break ends the statement the string stands at the front. -/
theorem ofText_newline_failed_block :
    (∃ document error completed,
      ofText .default "a: 1 #c".toList = .ok document ∧ Opens "b: \x7b'".toList ∧
        ofText .default ("a: 1 #c".toList ++ '\n' :: "b: \x7b'".toList) =
          .error (.malformed error completed) ∧
        Item.bareAll document.children <+: Item.bareAll completed.children) ∧
    ∃ document error completed,
      ofText .default "a: 1".toList = .ok document ∧ ¬ Hangs .default "a: 1".toList ∧
        ofText .default ("a: 1".toList ++ '\n' :: ['\x22']) = .error (.malformed error completed) ∧
        Item.bareAll document.children <+: Item.bareAll completed.children := by
  constructor
  · have hopens : Opens "b: \x7b'".toList := by
      have hlegible : ∀ mode : Mode, (mode.scan (mode.strip "b: \x7b'".toList)).toOption.any
          (fun lexeme => !lexeme.kind.isComment) = true → mode.Legible "b: \x7b'".toList := by
        intro mode hfirst
        obtain ⟨lexeme, hscan, hplain⟩ := exists_ok_of_any hfirst
        exact ⟨_, _, _, _, .of_strip rfl hscan (by simpa using hplain)⟩
      exact ⟨hlegible _ (by decide +kernel), hlegible _ (by decide +kernel)⟩
    obtain ⟨document, hdocument⟩ := exists_ok_of_isOk (x := ofText .default "a: 1 #c".toList)
      (by decide +kernel)
    obtain ⟨error, completed, hfailed, _⟩ := exists_failed_of_any (p := fun _ => true)
      (x := ofText .default ("a: 1 #c".toList ++ '\n' :: "b: \x7b'".toList)) (by decide +kernel)
    exact ⟨document, error, completed, hdocument, hopens, hfailed,
      ofText_newline_failed hdocument (fun _ => hopens) hfailed⟩
  · have hhangs : ¬ Hangs .default "a: 1".toList := by
      rintro ⟨whole, item, hwhole, hitem, _, stop, remarks, ends, hstop, hfinds⟩
      obtain ⟨found, hfound, hall⟩ := exists_ok_of_any (p := fun tree => tree.children.all
        fun item => (Node.item item).span.stop == 4) (x := ofText .default ("a: 1".toList ++ ['\n']))
        (by decide +kernel)
      cases hfound.symm.trans hwhole
      have hfour : (Node.item item).span.stop = 4 := beq_iff_eq.mp (List.all_eq_true.mp hall item hitem)
      obtain rfl : stop = 4 := by omega
      have hbreak : Mode.declaration.Finds ['\n'] [] false ⟨.terminator, 1⟩ ['\n'] :=
        .of_strip rfl rfl rfl
      obtain ⟨_, _, hlexeme, _⟩ := hbreak.unique hfinds
      cases hlexeme
    obtain ⟨document, hdocument⟩ := exists_ok_of_isOk (x := ofText .default "a: 1".toList)
      (by decide +kernel)
    obtain ⟨error, completed, hfailed, _⟩ := exists_failed_of_any (p := fun _ => true)
      (x := ofText .default ("a: 1".toList ++ '\n' :: ['\x22'])) (by decide +kernel)
    exact ⟨document, error, completed, hdocument, hhangs, hfailed,
      ofText_newline_failed hdocument (fun h => absurd h hhangs) hfailed⟩

/-- There is no token behind the comment: the declaration before it is lost, although the comment
ended it. -/
theorem newline_failed_comment :
    ∃ document error completed,
      ofText .default "a: 1 #c".toList = .ok document ∧
        ofText .default ("a: 1 #c".toList ++ '\n' :: ['\x22']) =
          .error (.malformed error completed) ∧
        ¬ Item.bareAll document.children <+: Item.bareAll completed.children := by
  obtain ⟨document, hdocument, htwo⟩ := exists_ok_of_any (p := fun tree => tree.children.length == 2)
    (x := ofText .default "a: 1 #c".toList) (by decide +kernel)
  obtain ⟨error, completed, hfailed, hone⟩ := exists_failed_of_any
    (p := fun found => found.2.children.length == 1)
    (x := ofText .default ("a: 1 #c".toList ++ '\n' :: ['\x22'])) (by decide +kernel)
  refine ⟨document, error, completed, hdocument, hfailed, ?_⟩
  intro hitems
  have hle := hitems.length_le
  rw [Item.bareAll_eq_map, Item.bareAll_eq_map, List.length_map, List.length_map] at hle
  have htwo : document.children.length = 2 := beq_iff_eq.mp htwo
  have hone : completed.children.length = 1 := beq_iff_eq.mp hone
  omega

end Document

end DiagramText
