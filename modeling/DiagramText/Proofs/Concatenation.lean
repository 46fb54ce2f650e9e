import DiagramText.Proofs.Grammar.Continuation
import DiagramText.Proofs.Grammar.Steps
import DiagramText.Proofs.Lexeme.Front
import DiagramText.Proofs.Nested

/-!
# Sources one after the other

A source that is read, a line break, and a further source are read together
exactly when the further source is read, and the items of the whole are those of
the one followed by those of the other (`Document.ofText_newline`).

The last statement of the first source may look into the further one, in either
mode of the line.  It finds something there in both modes whenever a statement
can begin there (`opens_of_outcome`).
-/

namespace DiagramText

open Grammar Reader

namespace Grammar

variable {config : Config}

/-- What a statement begins with. -/
theorem statement_begins {r s : Reader} {token : Token} {read : Statement}
    (hshows : r.Shows .declaration token) (h : statement r = .ok read s) :
    token.kind ≠ .connection ∧ (token.kind = .punct → token.isPunct '(' = true) := by
  unfold statement at h
  rw [bind_ok hshows.peek_eq] at h
  by_cases himport : token.kind = .importRef
  · simp [himport]
  rw [if_neg himport] at h
  by_cases hopening : token.isPunct '(' = true
  · have hkind := Token.kind_of_isPunctOf hopening
    exact ⟨by simp [hkind], fun _ => hopening⟩
  rw [if_neg hopening] at h
  obtain ⟨first, u, hfirst, _⟩ := bind_eq_ok.mp h
  obtain ⟨head, v, hhead, _⟩ := bind_eq_ok.mp hfirst
  unfold namePart at hhead
  rw [bind_ok hshows.peek_eq] at hhead
  constructor <;> intro hkind <;> simp only [hkind] at hhead <;> cases hhead

/-- Where the turns from the front of a text come to something, both modes of the line come to a
token there. -/
theorem opens_of_outcome {t : Text} {scopes : Scopes}
    (h : outcome config ⟨.ofText t, scopes⟩ ≠ none) : Opens t := by
  cases hpeek : peek .declaration (.ofText t) with
  | error fault r => exact absurd (outcome_of_peek_error hpeek) h
  | ok token r =>
      have hsees := (peek_spec (sound_ofText t) .declaration).ok hpeek
      obtain ⟨remarks, ends, hfinds, _⟩ := hsees.finds
      refine ⟨⟨_, _, _, _, hfinds⟩, ?_⟩
      obtain ⟨_, _, hscan, hplain⟩ := hfinds.settled
      have hbegins : token.kind ≠ .connection ∧
          (token.kind = .punct → Text.Begins (fun c => c = '(' ∨ c = '\x7d') r.text) := by
        by_cases hkind : token.kind = .connection ∨ token.kind = .punct
        · by_cases hbrace : token.isPunct '\x7d' = true
          · have htext := hsees.shows.text_eq_cons hsees.sound hbrace
            have hpunct := Token.kind_of_isPunctOf hbrace
            refine ⟨by simp [hpunct], fun _ => ?_⟩
            rw [htext]
            exact Text.begins_cons.mpr (.inr rfl)
          · have hact : act config token (settled config r scopes) = _ := act_statement
              (by rintro hterminator; simp [hterminator] at hkind)
              (by rintro heof; simp [heof] at hkind) hbrace
            have hturn : turn config ⟨.ofText t, scopes⟩ = _ := turn_of_peek hpeek
            have hshows : (settled config r scopes).reader.Shows .declaration token := hsees.shows
            cases hread : statement (settled config r scopes).reader with
            | error fault s =>
                rw [bind_error (parsing_error hread)] at hact
                exact absurd (outcome_of_error (hturn.trans hact)) h
            | ok read s =>
                obtain ⟨hconnection, hopening⟩ := statement_begins hshows hread
                refine ⟨hconnection, fun hpunct => ?_⟩
                rw [hsees.shows.text_eq_cons hsees.sound (hopening hpunct)]
                exact Text.begins_cons.mpr (.inl rfl)
        · exact ⟨fun h => hkind (.inl h), fun h => absurd (.inr h) hkind⟩
      obtain ⟨lexeme, hlabel⟩ := Mode.exists_scan_label hscan hplain hbegins.1 hbegins.2
      exact ⟨_, _, _, _, hfinds.transfer (.inl rfl) (.inr rfl) hlabel⟩

/-- With some items at the top, the turns from the front of a text come to these items and those
that they come to without them. -/
theorem outcome_top (config : Config) (t : Text) (top : List Item) :
    outcome config ⟨.ofText t, ⟨top, []⟩⟩ =
      (outcome config ⟨.ofText t, .empty⟩).map fun scopes =>
        ⟨top.map (·.bare) ++ scopes.top, scopes.blocks⟩ := by
  have hfollows : ∀ top : List Item,
      Ends (itemsUpTo config (t.length + 1) []) (.ofText t)
        (fun found r => Leads config ⟨.ofText t, ⟨top, []⟩⟩ ⟨r, ⟨top ++ found, []⟩⟩ ∧
          Stops ⟨r, ⟨top ++ found, []⟩⟩) (Fails config ⟨.ofText t, ⟨top, []⟩⟩) := fun top =>
    itemsUpTo_follows config (t.length + 1) ⟨.ofText t, ⟨top, []⟩⟩ (sound_ofText t) (Nat.lt_succ_self _)
  cases hitems : itemsUpTo config (t.length + 1) [] (.ofText t) with
  | ok found r =>
      have houtcome (top : List Item) : outcome config ⟨.ofText t, ⟨top, []⟩⟩ =
          some ⟨(top ++ found).map (·.bare), []⟩ := by
        obtain ⟨hleads, hstops⟩ := (hfollows top).ok hitems
        unfold outcome
        rw [hleads.turns_eq, turns_of_stops hstops rfl]
        rfl
      rw [houtcome top, Scopes.empty, houtcome []]
      simp
  | error fault r =>
      have houtcome (top : List Item) : outcome config ⟨.ofText t, ⟨top, []⟩⟩ = none := by
        obtain ⟨_, T, hT⟩ := (hfollows top).error hitems
        unfold outcome
        rw [hT]
      rw [houtcome top, Scopes.empty, houtcome []]
      rfl

end Grammar

namespace Document

variable {config : Config}

theorem newline_toOption {source : Text} {document : Document}
    (h : ofText config source = .ok document) (further : Text) :
    (ofText config (source ++ '\n' :: further)).toOption.map
        (fun joined => Item.bareAll joined.children) =
      (ofText config further).toOption.map
        (fun rest => Item.bareAll document.children ++ Item.bareAll rest.children) := by
  obtain ⟨T, hcomes, hscopes⟩ := comes_of_ofText h
  have htop := outcome_top config further document.children
  rw [← hscopes] at htop
  have hjoined : outcome config ⟨.ofText (source ++ '\n' :: further), .empty⟩ =
      outcome config ⟨.ofText further, T.scopes⟩ := by
    have hcontinued (h : Opens further ∨
        outcome config ⟨.ofText (source ++ '\n' :: further), .empty⟩ ≠ none) :
        outcome config ⟨.ofText (source ++ '\n' :: further), .empty⟩ = _ :=
      outcome_continued hcomes (lands_ofText source further) rfl h
    by_cases hopens : Opens further
    · exact hcontinued (.inl hopens)
    · have hnone : outcome config ⟨.ofText further, T.scopes⟩ = none :=
        Classical.byContradiction fun hsome => hopens (opens_of_outcome hsome)
      refine Classical.byContradiction fun hne => ?_
      rw [hnone] at hne
      exact hne ((hcontinued (.inr hne)).trans hnone)
  have hrest := congrArg (Option.map (Item.bareAll document.children ++ ·))
    (outcome_ofText config further)
  rw [Option.map_map, Option.map_map, Item.bareAll_eq_map] at hrest
  rw [← outcome_ofText, hjoined, htop, Option.map_map, Item.bareAll_eq_map]
  exact hrest

/-- A source that is read, followed by a line break and a further source, is read exactly when the
further source is, and then its items are those of the one and those of the other. -/
theorem ofText_newline {source : Text} {document : Document}
    (h : ofText config source = .ok document) (further : Text) :
    ((∃ joined, ofText config (source ++ '\n' :: further) = .ok joined) ↔
        ∃ rest, ofText config further = .ok rest) ∧
      ∀ joined rest, ofText config (source ++ '\n' :: further) = .ok joined →
        ofText config further = .ok rest →
          Item.bareAll joined.children = Item.bareAll document.children ++ Item.bareAll rest.children := by
  have hjoin := newline_toOption h further
  cases hjoined : ofText config (source ++ '\n' :: further) with
  | error failure =>
      cases hrest : ofText config further with
      | error failure' => simp
      | ok rest =>
          rw [hjoined, hrest] at hjoin
          cases hjoin
  | ok joined =>
      cases hrest : ofText config further with
      | error failure =>
          rw [hjoined, hrest] at hjoin
          cases hjoin
      | ok rest =>
          rw [hjoined, hrest] at hjoin
          refine ⟨by simp, ?_⟩
          rintro _ _ ⟨⟩ ⟨⟩
          exact Option.some.inj hjoin

/-- The comment at the end of the first source takes the line break in, and what follows is still a
declaration of its own. -/
theorem ofText_newline_comment :
    ∃ document joined rest, ofText .default "a: 1 #b".toList = .ok document ∧
      ofText .default ("a: 1 #b".toList ++ '\n' :: "c: \x7bd\x7d".toList) = .ok joined ∧
      ofText .default "c: \x7bd\x7d".toList = .ok rest ∧
      Item.bareAll joined.children = Item.bareAll document.children ++ Item.bareAll rest.children := by
  obtain ⟨document, hdocument⟩ := exists_ok_of_isOk (x := ofText .default "a: 1 #b".toList)
    (by decide +kernel)
  obtain ⟨rest, hrest⟩ := exists_ok_of_isOk (x := ofText .default "c: \x7bd\x7d".toList)
    (by decide +kernel)
  obtain ⟨⟨_, hjoin⟩, hchildren⟩ := ofText_newline hdocument "c: \x7bd\x7d".toList
  obtain ⟨joined, hjoined⟩ := hjoin ⟨rest, hrest⟩
  exact ⟨document, joined, rest, hdocument, hjoined, hrest, hchildren joined rest hjoined hrest⟩

end Document

end DiagramText
