import DiagramText.Proofs.Grammar.Mirror
import DiagramText.Proofs.Grammar.Turns

/-!
# Two sessions side by side

A turn does the same in two sessions whose scopes are the same up to spans and
whose readers have the same token ahead (`act_mirrors`).  `outcome` is what all
the turns of a session come to, up to spans; sessions at the same place have the
same outcome (`outcome_aligned`), wherever in a source that place is.

So a session that has entered a text from another one goes on as if it had
begun with that text (`outcome_enters`).
-/

namespace DiagramText

open Grammar Reader

namespace Grammar

/-- The open block without its spans. -/
def OpenBlock.bare (block : OpenBlock) : OpenBlock :=
  ⟨block.brace.bare, block.target.bare, block.label.map (·.bare), block.children.map (·.bare)⟩

namespace Scopes

/-- The scopes without their spans. -/
def bare (scopes : Scopes) : Scopes :=
  ⟨scopes.top.map (·.bare), scopes.blocks.map (·.bare)⟩

variable {scopes scopes' : Scopes}

/-- Items are added with their spans or without. -/
theorem bare_add (scopes : Scopes) (items : List Item) :
    (scopes.add items).bare = scopes.bare.add (items.map (·.bare)) := by
  obtain ⟨top, blocks⟩ := scopes
  cases blocks <;> simp [add, bare, OpenBlock.bare]

theorem bare_push (scopes : Scopes) (block : OpenBlock) :
    (scopes.push block).bare = scopes.bare.push block.bare := rfl

/-- Spans do not change how many blocks are open. -/
theorem length_blocks_of_bare (h : scopes'.bare = scopes.bare) :
    scopes'.blocks.length = scopes.blocks.length := by
  simpa [bare] using congrArg (fun scopes => scopes.blocks.length) h

/-- A block closed in the same scopes is the same item, whichever brace closes it. -/
theorem bare_pop_congr (h : scopes'.bare = scopes.bare) (closing closing' : Span) :
    (scopes'.pop closing').bare = (scopes.pop closing).bare := by
  obtain ⟨top, blocks⟩ := scopes
  obtain ⟨top', blocks'⟩ := scopes'
  obtain ⟨htop, hblocks⟩ := Scopes.mk.inj h
  cases blocks with
  | nil =>
      obtain rfl := List.map_eq_nil_iff.mp hblocks
      exact congrArg (fun top => (⟨top, []⟩ : Scopes)) htop
  | cons block outer =>
      obtain ⟨block', outer', rfl, hblock, houter⟩ := List.map_eq_cons_iff.mp hblocks
      obtain ⟨_, htarget, hlabel, hchildren⟩ := OpenBlock.mk.inj hblock
      have hscopes : Scopes.bare ⟨top', outer'⟩ = Scopes.bare ⟨top, outer⟩ := by
        rw [bare, bare, htop, houter]
      rw [pop, pop, bare_add, bare_add, hscopes]
      simp [OpenBlock.item, Item.bare, Declaration.bare, BlockMark.bare, Item.bareAll_eq_map,
        htarget, hlabel, hchildren]

end Scopes

/-- The remarks that become items of the tree. -/
def kept (config : Config) (remarks : List Item) : List Item :=
  if config.keepComments then remarks else []

/-- Of comments one after the other those of both are kept. -/
theorem kept_append (config : Config) (a b : List Item) :
    kept config (a ++ b) = kept config a ++ kept config b := by
  unfold kept
  split <;> simp

@[simp] theorem kept_nil (config : Config) : kept config [] = [] := by
  simp [kept]

/-- The items of comments are their remarks. -/
theorem bare_commentItems (config : Config) (r : Reader) :
    (commentItems config r.comments).map (·.bare) = kept config r.remarks := by
  unfold commentItems kept
  split
  · rw [List.map_map]
    rfl
  · rfl

variable {config : Config} {further : Option Text} {S S' T : Session} {token token' : Token}

/-- Settling a session adds the comments that are kept, up to spans. -/
theorem bare_settled (config : Config) (r : Reader) (scopes : Scopes) :
    (settled config r scopes).scopes.bare = scopes.bare.add (kept config r.remarks) := by
  rw [settled, Scopes.bare_add, bare_commentItems]

/-- Both sessions have the same token ahead, and the same scopes. -/
structure Abreast (further : Option Text) (S : Session) (token : Token) (S' : Session)
    (token' : Token) : Prop where
  settled : Settled S token
  settled' : Settled S' token'
  meets : Meets further .declaration token S.reader token' S'.reader
  scopes : S'.scopes.bare = S.scopes.bare

/-- Parsers that mirror each other do so as builders, and leave the scopes. -/
theorem mirrors_parsing {α β : Type} {lost : Prop} {p : Parser α} {q : Parser β}
    {post : α → Reader → β → Reader → Prop} (h : Mirrors lost p S.reader q S'.reader post) :
    Mirrors lost (parsing p) S (parsing q) S' (fun a T b T' =>
      post a T.reader b T'.reader ∧ T.scopes = S.scopes ∧ T'.scopes = S'.scopes) := by
  intro a T hrun
  cases hp : p S.reader with
  | error fault r => cases (parsing_error hp).symm.trans hrun
  | ok value r =>
      rw [parsing_ok hp] at hrun
      cases hrun
      exact ends_parsing.mpr ((h a r hp).imp fun _ _ hpost => ⟨hpost, rfl, rfl⟩)

/-- Both sessions open the block, or it is one too many in both. -/
theorem openBlock_mirrors {lost : Prop} {block block' : OpenBlock} (hblock : block'.bare = block.bare)
    (hscopes : S'.scopes.bare = S.scopes.bare) :
    Mirrors lost (openBlock config block) S (openBlock config block') S'
      (fun _ T _ T' => T'.scopes.bare = T.scopes.bare ∧ T.reader = S.reader ∧
        T'.reader = S'.reader) := by
  intro _ T hrun
  rw [openBlock_eq] at hrun
  by_cases hdeep : config.maxDepth < S.scopes.blocks.length + 1
  · rw [if_pos hdeep] at hrun
    cases hrun
  · rw [if_neg hdeep] at hrun
    cases hrun
    have hopen := openBlock_eq config block' S'
    rw [if_neg (by rwa [Scopes.length_blocks_of_bare hscopes])] at hopen
    refine (ends_of_ok hopen).mpr ⟨?_, rfl, rfl⟩
    rw [Scopes.bare_push, Scopes.bare_push, hscopes, hblock]

/-- Both sessions close their innermost blocks. -/
theorem closeBlock_mirrors (h : Abreast further S token S' token') (heof : token.kind ≠ .eof) :
    Mirrors (Lost further) closeBlock S closeBlock S'
      (fun _ T _ T' => T'.scopes.bare = T.scopes.bare ∧ Lands further T.reader T'.reader) := by
  have heof' : token'.kind ≠ .eof := by rwa [h.meets.kind]
  refine mirrors_congr (closeBlock_of_advance (h.settled.shows.advance_eq heof))
    (closeBlock_of_advance (h.settled'.shows.advance_eq heof')) ?_
  refine (mirrors_parsing (finishBlock_mirrors (.aligned h.meets.consumed))).imp ?_
  rintro _ T _ T' ⟨hlands, hscopes, hscopes'⟩
  rw [hscopes, hscopes']
  exact ⟨Scopes.bare_pop_congr h.scopes _ _, hlands⟩

/-- Both sessions put the same into their scopes. -/
theorem place_mirrors {lost : Prop} {read read' : Statement} (hread : read'.bare = read.bare)
    (hscopes : S'.scopes.bare = S.scopes.bare) :
    Mirrors lost (place config read) S (place config read') S'
      (fun again T again' T' => again' = again ∧ T'.scopes.bare = T.scopes.bare ∧
        T.reader = S.reader ∧ T'.reader = S'.reader) := by
  cases read with
  | item item =>
      cases read' with
      | opening => cases hread
      | item item' =>
          intro _ T hrun
          cases hrun
          have hitem : item'.bare = item.bare := Statement.item.inj hread
          simp only [place, ends_bind, ends_scoping, ends_pure, Scopes.bare_add, hscopes,
            List.map_cons, List.map_nil, hitem, and_self]
  | opening target label brace =>
      cases read' with
      | item => cases hread
      | opening target' label' brace' =>
          obtain ⟨htarget, hlabel, hbrace⟩ := Statement.opening.inj hread
          have hblock : OpenBlock.bare ⟨brace', target', label', []⟩ =
              OpenBlock.bare ⟨brace, target, label, []⟩ := by
            rw [OpenBlock.bare, OpenBlock.bare, htarget, hlabel, hbrace]
          refine (openBlock_mirrors hblock hscopes).bind ?_
          rintro _ T _ T' hopened
          exact mirrors_pure ⟨rfl, hopened⟩

/-- A turn does the same in both sessions. -/
theorem act_mirrors (h : Abreast further S token S' token') :
    Mirrors (Lost further) (act config token) S (act config token') S'
      (fun again T again' T' => again' = again ∧ T'.scopes.bare = T.scopes.bare ∧
        (again = true → Lands further T.reader T'.reader)) := by
  have hmeets := h.meets
  have hlength := Scopes.length_blocks_of_bare h.scopes
  by_cases hterminator : token.kind = .terminator
  · have hact : act config token S = _ := act_terminator h.settled hterminator
    have hact' : act config token' S' = _ :=
      act_terminator h.settled' (hmeets.kind.trans hterminator)
    intro again T hrun
    cases hact.symm.trans hrun
    exact (ends_of_ok hact').mpr ⟨rfl, h.scopes, fun _ => .aligned hmeets.consumed⟩
  by_cases heof : token.kind = .eof
  · have hact : act config token S = _ := act_eof heof
    have hact' : act config token' S' = _ := act_eof (hmeets.kind.trans heof)
    cases hblocks : S.scopes.blocks with
    | nil =>
        rw [hblocks] at hact hlength
        rw [List.length_eq_zero_iff.mp hlength] at hact'
        intro again T hrun
        cases hact.symm.trans hrun
        exact (ends_of_ok hact').mpr ⟨rfl, h.scopes, by simp⟩
    | cons block outer =>
        rw [hblocks] at hact
        exact mirrors_of_error hact
  by_cases hbrace : token.isPunct '\x7d' = true
  · have hact : act config token S = _ := act_brace hbrace
    have hact' : act config token' S' = _ := act_brace ((hmeets.isPunct _).trans hbrace)
    cases hblocks : S.scopes.blocks with
    | nil =>
        rw [hblocks] at hact
        exact mirrors_of_error hact
    | cons block outer =>
        rw [hblocks] at hact hlength
        obtain ⟨block', outer', hblocks'⟩ := List.exists_cons_of_length_eq_add_one hlength
        simp only [hblocks'] at hact'
        refine mirrors_congr hact hact' ((closeBlock_mirrors h heof).bind ?_)
        rintro _ U _ U' ⟨hscopes, hlands⟩
        exact mirrors_pure ⟨rfl, hscopes, fun _ => hlands⟩
  · refine mirrors_congr (act_statement hterminator heof hbrace)
      (act_statement (by rwa [hmeets.kind]) (by rwa [hmeets.kind]) (by rwa [hmeets.isPunct])) ?_
    refine (mirrors_parsing (statement_mirrors hmeets)).bind ?_
    rintro read U read' U' ⟨⟨hread, hlands⟩, hscopes, hscopes'⟩
    refine (place_mirrors hread (by rw [hscopes, hscopes', h.scopes])).imp ?_
    rintro again V again' V' ⟨hagain, hV, hreader, hreader'⟩
    rw [hreader, hreader']
    exact ⟨hagain, hV, fun _ => hlands⟩

/-! ## Outcomes -/

/-- What the turns of a session come to, without spans: the scopes after the last of them. -/
def outcome (config : Config) (S : Session) : Option Scopes :=
  match turns config S with
  | .ok _ T => some T.scopes.bare
  | .error _ _ => none

/-- A turn that is followed by another does not change what is come to. -/
theorem outcome_of_true (hS : S.reader.Sound) (h : turn config S = .ok true T) :
    outcome config S = outcome config T := by
  unfold outcome
  rw [turns_of_true hS h]

/-- A turn that is not followed by another comes to the scopes. -/
theorem outcome_of_false (h : turn config S = .ok false T) :
    outcome config S = some T.scopes.bare := by
  unfold outcome
  rw [turns_of_false h]

/-- A turn that fails comes to nothing. -/
theorem outcome_of_error {fault : Fault} (h : turn config S = .error fault T) :
    outcome config S = none := by
  unfold outcome
  rw [turns_of_error h]

/-- Settling a session does not change its outcome. -/
theorem outcome_settled {r : Reader} (hS : S.reader.Sound)
    (h : peek .declaration S.reader = .ok token r) :
    outcome config (settled config r S.scopes) = outcome config S := by
  unfold outcome
  rw [turns_settled hS h]

/-- A look ahead that fails comes to nothing. -/
theorem outcome_of_peek_error {fault : Fault} {r : Reader}
    (h : peek .declaration S.reader = .error fault r) : outcome config S = none :=
  outcome_of_error (turn_of_peek_error h)

/-- On the same text it does not matter which of the sessions is the first. -/
theorem Abreast.symm (h : Abreast none S token S' token') : Abreast none S' token' S token := by
  have hbeside := h.meets.beside
  refine ⟨h.settled', h.settled, ⟨⟨hbeside.sound', hbeside.sound, ?_, hbeside.remarks.symm⟩,
    h.meets.shows', h.meets.shows, h.meets.kind.symm, h.meets.text.symm⟩, h.scopes.symm⟩
  simp [hbeside.text, tail]

/-- Nothing is lost where nothing follows. -/
theorem not_lost_none : ¬ Lost none := by
  rintro ⟨_, hnone, _⟩
  cases hnone

/-- Readers on the same text have landed at the same place. -/
theorem Lands.of_none {r r' : Reader} (h : Lands none r r') : Aligned none r r' := by
  cases h with
  | aligned h => exact h
  | entered hfurther => cases hfurther

/-- Sessions that see the same at the same place are abreast once they have placed their
comments. -/
theorem abreast_of_sees {r r' r₁ r₁' : Reader} {scopes scopes' : Scopes}
    (h : Sees .declaration r token r₁) (h' : Sees .declaration r' token' r₁')
    (htext : r₁'.text = r₁.text)
    (hscopes : scopes'.bare.add (kept config r₁'.remarks) = scopes.bare.add (kept config r₁.remarks)) :
    Abreast none (settled config r₁ scopes) token (settled config r₁' scopes') token' := by
  obtain ⟨hscan, hcut⟩ := h.shows.scan h.sound
  obtain ⟨hscan', hcut'⟩ := h'.shows.scan h'.sound
  rw [htext] at hscan' hcut'
  obtain ⟨hkind, hlength⟩ := Lexeme.mk.inj (Except.ok.inj (hscan'.symm.trans hscan))
  rw [hlength, ← hcut] at hcut'
  refine ⟨settled_of_sees h, settled_of_sees h', ⟨⟨h.sound.emptied, h'.sound.emptied, ?_, rfl⟩,
    h.shows, h'.shows, hkind, hcut'⟩, ?_⟩
  · simp [settled, htext, tail]
  · rw [bare_settled, bare_settled, hscopes]

/-- Where one of two readers at the same place sees a token, the other sees it too. -/
theorem peek_aligned (config : Config) {r r' r₁ : Reader} {scopes scopes' : Scopes} (h : Aligned none r r')
    (hscopes : scopes'.bare = scopes.bare) (hpeek : peek .declaration r = .ok token r₁) :
    ∃ token' r₁', peek .declaration r' = .ok token' r₁' ∧
      Abreast none (settled config r₁ scopes) token (settled config r₁' scopes') token' := by
  have hsees := (peek_spec h.sound .declaration).ok hpeek
  obtain ⟨token', r₁', hpeek', hshows', hlook⟩ := (h.peek hsees (absurd rfl)).exists_ok
  have hsees' := (peek_spec h.sound' .declaration).ok hpeek'
  refine ⟨token', r₁', hpeek', ?_⟩
  cases hlook with
  | same haligned _ _ =>
      refine abreast_of_sees hsees hsees' (by simp [haligned.text, tail]) ?_
      rw [haligned.remarks, hscopes]
  | last hfurther => cases hfurther
  | crossed hfurther => cases hfurther

/-- Sessions that are abreast have the same outcome, if those at the same place later on have. -/
theorem outcome_abreast_of (h : Abreast none S token S' token')
    (hlater : ∀ T T' : Session, T.reader.ahead < S.reader.ahead → Aligned none T.reader T'.reader →
      T'.scopes.bare = T.scopes.bare → outcome config T' = outcome config T) :
    outcome config S' = outcome config S := by
  have hturn : turn config S = _ := h.settled.turn_eq
  have hturn' : turn config S' = _ := h.settled'.turn_eq
  cases hact : act config token S with
  | ok again T =>
      have hmirrors := act_mirrors h again T hact
      cases hact' : act config token' S' with
      | error fault T' => exact absurd (hmirrors.error hact') not_lost_none
      | ok again' T' =>
          obtain ⟨rfl, hscopes, hlands⟩ := hmirrors.ok hact'
          rw [hact] at hturn
          rw [hact'] at hturn'
          cases again' with
          | false => rw [outcome_of_false hturn, outcome_of_false hturn', hscopes]
          | true =>
              rw [outcome_of_true h.settled.sound hturn, outcome_of_true h.settled'.sound hturn']
              have hless := ((act_spec config h.settled).ok hact).2.1 rfl
              exact hlater T T' hless (hlands rfl).of_none hscopes
  | error fault T =>
      cases hact' : act config token' S' with
      | error fault' T' => rw [outcome_of_error (hturn.trans hact), outcome_of_error (hturn'.trans hact')]
      | ok again' T' =>
          exact absurd ((act_mirrors h.symm again' T' hact').error hact) not_lost_none

/-- Sessions at the same place have the same outcome, wherever that place is in the source.  The
induction is on what is ahead: every turn but the last consumes something. -/
theorem outcome_aligned (h : Aligned none S.reader S'.reader)
    (hscopes : S'.scopes.bare = S.scopes.bare) : outcome config S' = outcome config S := by
  generalize hn : S.reader.ahead = n
  induction n using Nat.strongRecOn generalizing S S' with
  | ind n ih =>
      cases hpeek : peek .declaration S.reader with
      | error fault r =>
          cases hpeek' : peek .declaration S'.reader with
          | error fault' r' => rw [outcome_of_peek_error hpeek, outcome_of_peek_error hpeek']
          | ok token' r' =>
              obtain ⟨token, r, hok, _⟩ := peek_aligned config h.symm hscopes.symm hpeek'
              cases hok.symm.trans hpeek
      | ok token r =>
          obtain ⟨token', r', hpeek', habreast⟩ := peek_aligned config h hscopes hpeek
          rw [← outcome_settled h.sound hpeek, ← outcome_settled h.sound' hpeek']
          refine outcome_abreast_of habreast fun T T' hless haligned hsame => ?_
          have hle := ((peek_spec h.sound .declaration).ok hpeek).ahead_le
          exact ih T.reader.ahead (hn ▸ Nat.lt_of_lt_of_le hless hle) haligned hsame rfl

/-- Sessions that are abreast have the same outcome. -/
theorem outcome_abreast (h : Abreast none S token S' token') :
    outcome config S' = outcome config S :=
  outcome_abreast_of h fun _ _ _ => outcome_aligned

/-! ## Entering a text -/

/-- A session at the front of a text goes on as if it had begun with the text. -/
theorem outcome_here {t : Text} {r : Reader} {scopes scopes' : Scopes} (hr : r.Sound)
    (htext : r.text = t)
    (hscopes : scopes'.bare = scopes.bare.add (kept config r.remarks)) :
    outcome config ⟨r, scopes⟩ = outcome config ⟨.ofText t, scopes'⟩ := by
  have hfresh := sound_ofText t
  cases hpeek : peek .declaration (.ofText t) with
  | error fault u =>
      have hnone : outcome config ⟨.ofText t, scopes'⟩ = none := outcome_of_peek_error hpeek
      cases hpeek' : peek .declaration r with
      | error fault' u' =>
          have hnone' : outcome config ⟨r, scopes⟩ = none := outcome_of_peek_error hpeek'
          exact hnone'.trans hnone.symm
      | ok token u' =>
          obtain ⟨_, _, hfinds, _⟩ := ((peek_spec hr .declaration).ok hpeek').finds
          rw [htext] at hfinds
          exact absurd ⟨_, _, _, _, hfinds⟩ ((peek_spec hfresh .declaration).error hpeek).2
  | ok token u =>
      have hsees := (peek_spec hfresh .declaration).ok hpeek
      obtain ⟨remarks, ends, hfinds, hremarks, _⟩ := hsees.finds
      have hfinds' : Mode.declaration.Finds r.text remarks ends _ u.text := htext.symm ▸ hfinds
      obtain ⟨token', u', hpeek', hsees'⟩ := peek_of_finds hr hfinds'
      obtain ⟨_, _, htext', hremarks', _⟩ := hsees'.of_finds hfinds'
      have hsettled : _ = outcome config ⟨.ofText t, scopes'⟩ := outcome_settled hfresh hpeek
      have hsettled' : _ = outcome config ⟨r, scopes⟩ := outcome_settled hr hpeek'
      rw [← hsettled, ← hsettled']
      refine outcome_abreast (abreast_of_sees hsees hsees' htext' ?_)
      rw [hremarks, hremarks', hscopes, kept_append, Scopes.add_add]
      rfl

/-- A session that has entered a text goes on as if it had begun with the text. -/
theorem outcome_enters {t : Text} {before : List Item} {r : Reader} {scopes scopes' : Scopes}
    (h : Enters t before r) (hscopes : scopes'.bare = scopes.bare.add (kept config before)) :
    outcome config ⟨r, scopes⟩ = outcome config ⟨.ofText t, scopes'⟩ := by
  have hfresh := sound_ofText t
  cases h with
  | here sound text remarks => exact outcome_here sound text (by rw [hscopes, remarks])
  | @looked token later ends lexeme sound shows' finds remarks =>
      obtain ⟨token', u, hpeek, hsees⟩ := peek_of_finds hfresh finds
      obtain ⟨_, _, htext, hremarks, _⟩ := hsees.of_finds finds
      have hsettled : _ = outcome config ⟨.ofText t, scopes'⟩ := outcome_settled hfresh hpeek
      have hsettled' : _ = outcome config ⟨r, scopes⟩ := outcome_settled sound shows'.peek_eq
      rw [← hsettled, ← hsettled']
      refine outcome_abreast (abreast_of_sees hsees (shows'.sees sound) htext.symm ?_)
      rw [hremarks, remarks, hscopes, kept_append, Scopes.add_add]
      rfl
  | @ended later ends n v sound finds text remarks =>
      obtain ⟨token', u, hpeek, hsees⟩ := peek_of_finds hfresh finds
      obtain ⟨hkind, htake, htext, hremarks, _⟩ := hsees.of_finds finds
      have hsettled : Settled (settled config u scopes') token' := settled_of_sees hsees
      have hturn : turn config ⟨.ofText t, scopes'⟩ = _ :=
        (turn_of_peek hpeek).trans (act_terminator hsettled hkind)
      rw [outcome_of_true hfresh hturn]
      have hlength : token'.text.length = n := by
        have := congrArg Lexeme.length
          (Except.ok.inj ((hsees.shows.scan hsees.sound).1.symm.trans (htext ▸ finds.settled.2.2.1)))
        exact this
      have hrest : (settled config u scopes').reader.consumed.text = v.drop n := by
        rw [hsettled.shows.text_consumed hsettled.sound, hlength, settled, text_emptied, htext]
      have hright : outcome config ⟨r, scopes⟩ =
          outcome config ⟨.ofText (v.drop n), scopes.add (commentItems config r.comments)⟩ :=
        outcome_here sound text (by rw [Scopes.bare_add, bare_commentItems])
      have hsame : (scopes.add (commentItems config r.comments)).bare =
          (settled config u scopes').scopes.bare := by
        rw [bare_settled, Scopes.bare_add, bare_commentItems, remarks, hremarks, hscopes,
          kept_append, ← Scopes.add_add]
        rfl
      have hleft : outcome config ⟨(settled config u scopes').reader.consumed,
          (settled config u scopes').scopes⟩ =
          outcome config ⟨.ofText (v.drop n), scopes.add (commentItems config r.comments)⟩ := by
        refine outcome_here hsettled.sound.consumed hrest ?_
        have hnone : (settled config u scopes').reader.consumed.remarks = [] := rfl
        rw [hnone, kept_nil, Scopes.add_nil, hsame]
      exact hright.trans hleft.symm

end Grammar

end DiagramText
