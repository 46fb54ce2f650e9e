import DiagramText.Proofs.Grammar.Sessions

/-!
# A source that goes on

The turns on a source come to its end, in a session that may have blocks open
(`Comes`).  When the source goes on with a line break and further text, the
turns on the longer source come to the same scopes and then go on as the turns
from the front of the further text would (`outcome_continued`).

The one thing that can go wrong is that the last statement of the source looks
into the further text and finds nothing that can be read there in both modes of
the line.  Then the further text does not open with a statement either.
-/

namespace DiagramText

open Grammar Reader

namespace Grammar

variable {config : Config} {further : Option Text} {S S' T : Session} {token token' : Token}

/-- The turns from the one session come to the end of the source in the other. -/
inductive Comes (config : Config) : Session → Session → Prop
  | stop {S : Session} {token : Token} {r : Reader} (sound : S.reader.Sound)
      (peeked : peek .declaration S.reader = .ok token r) (eof : token.kind = .eof) :
      Comes config S (settled config r S.scopes)
  | turn {S S' T : Session} (sound : S.reader.Sound) (turned : turn config S = .ok true S')
      (later : Comes config S' T) : Comes config S T

/-- All comments are placed where the turns have come to the end. -/
theorem Comes.comments (h : Comes config S T) : T.reader.comments = [] := by
  induction h with
  | stop => rfl
  | turn _ _ _ ih => exact ih

/-- At the end of the source all of it was read. -/
theorem Comes.text (h : Comes config S T) : T.reader.text = [] := by
  induction h with
  | stop sound peeked eof =>
      have hsees := (peek_spec sound .declaration).ok peeked
      exact (hsees.shows.eof_iff hsees.sound).mp eof
  | turn _ _ _ ih => exact ih

/-- A turn at the end of the source is the last. -/
theorem turn_of_eof {r : Reader} (hpeek : peek .declaration S.reader = .ok token r)
    (heof : token.kind = .eof) :
    turn config S =
      match (settled config r S.scopes).scopes.blocks with
      | [] => .ok false (settled config r S.scopes)
      | block :: _ =>
        .error (.malformed (.unclosedBlock block.brace.span)) (settled config r S.scopes) :=
  (turn_of_peek hpeek).trans (act_eof heof)

/-- A turn that is followed by another does not see the end. -/
theorem ne_eof_of_turn {r : Reader} (hpeek : peek .declaration S.reader = .ok token r)
    (hturn : turn config S = .ok true T) : token.kind ≠ .eof := by
  intro heof
  have hlast := (turn_of_eof hpeek heof).symm.trans hturn
  split at hlast <;> cases hlast

/-- Turns that succeed come to the end with no block open, and those that fail for want of a closing
brace come to it with some block open.  The induction is on what is ahead. -/
theorem turns_comes (hS : S.reader.Sound) :
    Ends (turns config) S (fun _ T => Comes config S T ∧ T.scopes.blocks = [])
      (fun fault T => ∀ brace, fault = .malformed (.unclosedBlock brace) →
        Comes config S T ∧ T.scopes.blocks ≠ []) := by
  generalize hn : S.reader.ahead = n
  induction n using Nat.strongRecOn generalizing S with
  | ind n ih =>
      cases hpeek : peek .declaration S.reader with
      | error fault r =>
          refine (ends_of_error (turns_of_error (turn_of_peek_error hpeek))).mpr ?_
          intro brace hbrace
          exact absurd hbrace (((peek_spec hS .declaration).error hpeek).1.2.1 brace)
      | ok token r =>
          have hsees := (peek_spec hS .declaration).ok hpeek
          by_cases heof : token.kind = .eof
          · have hcomes : Comes config S _ := .stop hS hpeek heof
            have hturn : turn config S = _ := turn_of_eof hpeek heof
            split at hturn
            · next hblocks => exact (ends_of_ok (turns_of_false hturn)).mpr ⟨hcomes, hblocks⟩
            · next hblocks =>
                exact (ends_of_error (turns_of_error hturn)).mpr
                  fun _ _ => ⟨hcomes, by simp [hblocks]⟩
          · have hsettled : Settled (settled config r S.scopes) token := settled_of_sees hsees
            have hact := act_spec config hsettled
            rw [← ends_congr (turn_of_peek hpeek)] at hact
            cases hturn : turn config S with
            | error fault T =>
                refine (ends_of_error (turns_of_error hturn)).mpr ?_
                intro brace hbrace
                exact absurd hbrace ((hact.error hturn).2 heof brace)
            | ok again T =>
                obtain ⟨hsound, hless, hagain⟩ := hact.ok hturn
                obtain rfl := hagain heof
                have hlt := Nat.lt_of_lt_of_le (hless rfl) hsees.ahead_le
                rw [ends_congr (turns_of_true hS hturn)]
                refine (ih _ (hn ▸ hlt) hsound rfl).mono ?_ ?_
                · rintro _ U ⟨hcomes, hblocks⟩
                  exact ⟨.turn hS hturn hcomes, hblocks⟩
                · intro fault U hlater brace hbrace
                  obtain ⟨hcomes, hblocks⟩ := hlater brace hbrace
                  exact ⟨.turn hS hturn hcomes, hblocks⟩

/-- Readers at the same place that have the same token ahead are abreast once the comments are
placed. -/
theorem abreast_of_aligned (config : Config) {r r' : Reader} {scopes scopes' : Scopes} (h : Aligned further r r')
    (hshows : r.Shows .declaration token) (hshows' : r'.Shows .declaration token')
    (hkind : token'.kind = token.kind) (htext : token'.text = token.text)
    (hscopes : scopes'.bare = scopes.bare) :
    Abreast further (settled config r scopes) token (settled config r' scopes') token' := by
  have hsound := h.sound.emptied
  have hsound' := h.sound'.emptied
  refine ⟨⟨hsound, hshows, rfl⟩, ⟨hsound', hshows', rfl⟩,
    ⟨⟨hsound, hsound', h.text, rfl⟩, hshows, hshows', hkind, htext⟩, ?_⟩
  rw [bare_settled, bare_settled, hscopes, h.remarks]

/-- At the end of the first source the other session goes on with the further text. -/
theorem outcome_at_end {t : Text} {r : Reader} (hlands : Lands (some t) S.reader S'.reader)
    (hscopes : S'.scopes.bare = S.scopes.bare) (hS : S.reader.Sound)
    (hpeek : peek .declaration S.reader = .ok token r) (heof : token.kind = .eof)
    (hopens : Opens t ∨ outcome config S' ≠ none) :
    outcome config S' = outcome config ⟨.ofText t, (settled config r S.scopes).scopes⟩ := by
  have hsees := (peek_spec hS .declaration).ok hpeek
  have hplaced : (settled config r S.scopes).scopes.bare =
      S'.scopes.bare.add (kept config r.remarks) := by
    rw [bare_settled, hscopes]
  cases hlands with
  | entered hfurther sound text henters =>
      obtain rfl := Option.some.inj hfurther
      obtain ⟨_, _, _, hremarks, _⟩ := hsees.of_finds (text ▸ Mode.finds_nil)
      rw [List.append_nil] at hremarks
      exact outcome_enters henters (hremarks ▸ hplaced)
  | aligned h =>
      have hlook := h.peek_eof (.inl rfl) hsees heof
      cases hpeek' : peek .declaration S'.reader with
      | error fault r' =>
          obtain ⟨_, hsome, hlost⟩ := hlook.error hpeek'
          obtain rfl := Option.some.inj hsome
          rcases hopens with hopens | hsome
          · exact absurd hopens hlost
          · exact absurd (outcome_of_peek_error hpeek') hsome
      | ok token' r' =>
          obtain ⟨hshows', hlook⟩ := hlook.ok hpeek'
          have hsees' := (peek_spec h.sound' .declaration).ok hpeek'
          cases hlook with
          | same aligned kind _ =>
              have hnil := (hsees.shows.eof_iff hsees.sound).mp heof
              have hnil' := (hshows'.eof_iff hsees'.sound).mp (kind.trans heof)
              rw [aligned.text, hnil] at hnil'
              cases hnil'
          | last hfurther aligned _ terminator after =>
              obtain rfl := Option.some.inj hfurther
              have hsettled : Settled (settled config r' S'.scopes) token' := settled_of_sees hsees'
              rw [← outcome_settled h.sound' hpeek', outcome_of_true hsettled.sound
                (hsettled.turn_eq.trans (act_terminator hsettled terminator))]
              refine outcome_here hsettled.sound.consumed after ?_
              have hnone : (settled config r' S'.scopes).reader.consumed.remarks = [] := rfl
              rw [hplaced, hnone, kept_nil, Scopes.add_nil, bare_settled, aligned.remarks]
          | crossed hfurther crossed _ =>
              obtain rfl := Option.some.inj hfurther
              obtain ⟨mode, later, e, lexeme, hmode, hfinds, hremarks⟩ := crossed.finds
              have hfound := hfinds.transfer hmode (.inl rfl) (hshows'.scan hsees'.sound).1
              have hsettled : _ = outcome config ⟨r', S'.scopes⟩ :=
                outcome_settled hsees'.sound hshows'.peek_eq
              rw [← outcome_settled h.sound' hpeek', hsettled]
              exact outcome_enters (.looked hsees'.sound hshows' hfound hremarks) hplaced

/-- The first session came to the end of its source, and the other has landed there. -/
inductive AtEnd (config : Config) (t : Text) (U : Session) : Session → Prop
  | intro {E : Session} {token : Token} {r : Reader} (sound : E.reader.Sound)
      (peeked : peek .declaration E.reader = .ok token r) (eof : token.kind = .eof)
      (lands : Lands (some t) E.reader U.reader) (scopes : U.scopes.bare = E.scopes.bare) :
      AtEnd config t U (settled config r E.scopes)

/-- Where a source goes on with a line break and further text, the turns on it are those of a session
that has landed where the shorter source ends. -/
theorem exists_atEnd {t : Text} (h : Comes config S T)
    (hlands : Lands (some t) S.reader S'.reader) (hscopes : S'.scopes.bare = S.scopes.bare)
    (hopens : Opens t ∨ outcome config S' ≠ none) :
    ∃ U, AtEnd config t U T ∧ turns config S' = turns config U := by
  induction h generalizing S' with
  | stop sound peeked eof => exact ⟨S', .intro sound peeked eof hlands hscopes, rfl⟩
  | @turn S S₁ T sound turned later ih =>
      cases hpeek : peek .declaration S.reader with
      | error fault r => cases (turn_of_peek_error hpeek).symm.trans turned
      | ok token r =>
          have hsees := (peek_spec sound .declaration).ok hpeek
          have hturn : turn config S = _ := turn_of_peek hpeek
          have heof : token.kind ≠ .eof := ne_eof_of_turn hpeek turned
          cases hlands with
          | entered _ _ text _ => exact absurd (hsees.of_nil text).1 heof
          | aligned h =>
              obtain ⟨token', r', hpeek', hshows', hlook⟩ := (h.peek hsees fun _ => heof).exists_ok
              have hsees' := (peek_spec h.sound' .declaration).ok hpeek'
              have hturn' : turn config S' = _ := turn_of_peek hpeek'
              -- Where the other session takes a turn too, what follows is known by induction.
              have hnext : ∀ S₁', turn config S' = .ok true S₁' → Lands (some t) S₁.reader S₁'.reader →
                  S₁'.scopes.bare = S₁.scopes.bare →
                  ∃ U, AtEnd config t U T ∧ turns config S' = turns config U := by
                intro S₁' hturned hlands hsame
                rw [outcome_of_true h.sound' hturned] at hopens
                rw [turns_of_true h.sound' hturned]
                exact ih hlands hsame hopens
              cases hlook with
              | same aligned kind text =>
                  have habreast := abreast_of_aligned config aligned hsees.shows hshows'
                    kind text hscopes
                  have hmirrors := act_mirrors habreast _ _ (hturn.symm.trans turned)
                  cases hact : act config token' (settled config r' S'.scopes) with
                  | error fault S₁' =>
                      obtain ⟨_, hsome, hlost⟩ := hmirrors.error hact
                      obtain rfl := Option.some.inj hsome
                      rcases hopens with hopens | hsome
                      · exact absurd hopens hlost
                      · exact absurd (outcome_of_error (hturn'.trans hact)) hsome
                  | ok again S₁' =>
                      obtain ⟨rfl, hsame, hlands⟩ := hmirrors.ok hact
                      exact hnext S₁' (hturn'.trans hact) (hlands rfl) hsame
              | last hfurther aligned ends terminator after =>
                  obtain rfl := Option.some.inj hfurther
                  obtain ⟨hterminator, hnil⟩ := ends.resolve_left fun hend => heof hend.1
                  have hsettled : Settled (settled config r S.scopes) token := settled_of_sees hsees
                  have hsettled' : Settled (settled config r' S'.scopes) token' := settled_of_sees hsees'
                  cases (hturn.trans (act_terminator hsettled hterminator)).symm.trans turned
                  refine hnext _ (hturn'.trans (act_terminator hsettled' terminator))
                    (.entered rfl hsettled.sound.consumed hnil
                      (.here hsettled'.sound.consumed after rfl)) ?_
                  rw [bare_settled, bare_settled, hscopes, aligned.remarks]
              | crossed _ _ eof => exact absurd eof heof

/-- The turns on a source that goes on with a line break and further text come to what the turns
from the front of the further text come to, in the scopes that the shorter source leaves. -/
theorem outcome_continued {t : Text} (h : Comes config S T)
    (hlands : Lands (some t) S.reader S'.reader) (hscopes : S'.scopes.bare = S.scopes.bare)
    (hopens : Opens t ∨ outcome config S' ≠ none) :
    outcome config S' = outcome config ⟨.ofText t, T.scopes⟩ := by
  obtain ⟨U, hend, hturns⟩ := exists_atEnd h hlands hscopes hopens
  have houtcome : outcome config S' = outcome config U := by
    unfold outcome
    rw [hturns]
  rw [houtcome] at hopens ⊢
  cases hend with
  | intro sound peeked eof lands scopes =>
      exact outcome_at_end lands scopes sound peeked eof hopens

end Grammar

namespace Document

/-- A source is read exactly when its turns come to something, and that is its items. -/
theorem outcome_ofText (config : Config) (source : Text) :
    (outcome config ⟨.ofText source, .empty⟩).map (·.top) =
      (ofText config source).toOption.map fun document => Item.bareAll document.children := by
  unfold ofText outcome
  rw [run_eq_turns]
  cases hturns : turns config ⟨.ofText source, .empty⟩ with
  | ok value T => simp [Scopes.bare, ofItems, Except.toOption, Item.bareAll_eq_map]
  | error fault T => cases fault <;> rfl

/-- The readers stand at the fronts of a source and of one that goes on. -/
theorem lands_ofText (source t : Text) :
    Lands (some t) (.ofText source) (.ofText (source ++ '\n' :: t)) :=
  .aligned ⟨sound_ofText _, sound_ofText _, rfl, rfl, rfl⟩

end Document

end DiagramText
