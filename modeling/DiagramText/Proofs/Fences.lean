import DiagramText.Proofs.Lexeme.RespellLabel
import DiagramText.Proofs.Reading

/-!
# Code blocks are taken apart as they were put together

The scanner and `CodeParts.ofText?` find the fence, the language and the end of
the content each on its own.  They agree: what the scanner finds as a code block
is taken apart into parts that it consists of, and parts that could have been so
found make a code block again when they are joined (`CodeParts.codeBlock_agrees`).

Such parts have a language of letters and digits, content that does not go on
with one, and no closing fence before the end of the content
(`CodeParts.Delimited`).  The last holds of the content with the fence behind
it, as bars or a back quote at the end of the content may begin one.
-/

namespace DiagramText

/-- The leftmost place at which the mark stands in the text is the offset `k`. -/
structure Text.FirstAt (mark s : Text) (k : Nat) : Prop where
  stands : mark <+: s.drop k
  first : ∀ j < k, ¬mark <+: s.drop j

/-- A mark that is not at the front of a text is where it is behind the first character. -/
theorem Text.firstAt_cons {mark s : Text} {c : Char} {k : Nat} :
    FirstAt mark (c :: s) k ↔
      if mark <+: c :: s then k = 0 else ∃ j, FirstAt mark s j ∧ j + 1 = k := by
  split
  · next hfront =>
      constructor
      · intro h
        exact Nat.eq_zero_of_not_pos fun hk => h.first 0 hk hfront
      · rintro rfl
        exact ⟨hfront, by omega⟩
  · next hfront =>
      constructor
      · rintro ⟨hstands, hfirst⟩
        cases k with
        | zero => exact absurd hstands hfront
        | succ j => exact ⟨j, ⟨hstands, fun i hi => hfirst (i + 1) (Nat.succ_lt_succ hi)⟩, rfl⟩
      · rintro ⟨j, ⟨hstands, hfirst⟩, rfl⟩
        refine ⟨hstands, fun i hi => ?_⟩
        cases i with
        | zero => exact hfront
        | succ i => exact hfirst i (Nat.lt_of_succ_lt_succ hi)

/-- The search for a mark gives the leftmost place at which it stands. -/
theorem Text.find?_eq_some_iff {mark s : Text} {k : Nat} :
    find? mark s = some k ↔ FirstAt mark s k := by
  induction s generalizing k with
  | nil =>
      cases mark with
      | nil =>
          constructor
          · intro h
            obtain rfl := Option.some.inj h
            exact ⟨List.nil_prefix, by omega⟩
          · intro h
            obtain rfl := Nat.eq_zero_of_not_pos fun hk => h.first 0 hk List.nil_prefix
            rfl
      | cons m mark =>
          constructor
          · intro h
            cases h
          · intro h
            have hnil := h.stands
            rw [List.drop_nil] at hnil
            cases List.prefix_nil.mp hnil
  | cons c s ih =>
      rw [find?, firstAt_cons]
      simp only [List.isPrefixOf_iff_prefix]
      split
      · simp [eq_comm]
      · simp only [Option.map_eq_some_iff, ih]

namespace CodeParts

/-- Parts of which a code block can consist: a language of letters and digits, content that does not
go on with them, and no closing fence before the one behind the content. -/
structure Delimited (parts : CodeParts) : Prop where
  tagged : parts.language ≠ []
  letters : parts.language.all Char.isAlphanum = true
  content : parts.content.Begins fun c => c.isAlphanum = false
  closes : Text.FirstAt parts.style.closer (parts.content ++ parts.style.closer) parts.content.length

/-- The text is the parts between their fences, with spaces and tabs before the language. -/
def MakesUp (parts : CodeParts) (text : Text) : Prop :=
  ∃ blanks : Text, (∀ c ∈ blanks, c = ' ' ∨ c = '\t') ∧
    text = parts.style.opener ++ blanks ++ parts.language ++ parts.content ++ parts.style.closer

theorem fits_iff_delimited {parts : CodeParts} : parts.Fits ↔ parts.Delimited := by
  have hcontent : Text.Begins (fun c => c.isAlphanum = false) (parts.content ++ parts.style.closer) ↔
      parts.content.Begins fun c => c.isAlphanum = false := by
    obtain ⟨style, language, content⟩ := parts
    cases content with
    | nil =>
        refine ⟨fun _ => Text.Begins.nil, fun _ => ?_⟩
        cases style <;> exact Text.begins_cons.mpr (by decide)
    | cons c content => exact Iff.rfl
  constructor
  · intro h
    exact ⟨h.tagged, h.letters, hcontent.mp h.ends, Text.find?_eq_some_iff.mp h.closes⟩
  · intro h
    exact ⟨h.tagged, h.letters, hcontent.mpr h.content, Text.find?_eq_some_iff.mpr h.closes⟩

/-- The scanner and the function that takes code blocks apart agree.  A token that is a code block is
taken apart into delimited parts that make it up; and the text of delimited parts is one such token,
from which the parts come again. -/
theorem codeBlock_agrees :
    (∀ (source : Text) (offset : Int) (token : Token),
      ((Cursor.atOffset source offset).next .label).1 = .ok token → token.kind = .codeBlock →
        ∃ parts : CodeParts, ofText? token.text = some (.ok parts) ∧ parts.Delimited ∧
          parts.MakesUp token.text) ∧
      ∀ parts : CodeParts, parts.Delimited →
        parts.source.IsSingle .label .codeBlock ∧ ofText? parts.source = some (.ok parts) := by
  constructor
  · intro source offset token hnext hkind
    have hspells := (Cursor.readFrom_atOffset hnext).spells
    rw [hkind] at hspells
    obtain ⟨parts, hparts, hfits, blanks, hblanks, htext⟩ := of_spells hspells
    refine ⟨parts, hparts, fits_iff_delimited.mp hfits, blanks, fun c hc => ?_, htext⟩
    simpa using List.all_eq_true.mp hblanks c hc
  · intro parts hdelimited
    have hfits := fits_iff_delimited.mpr hdelimited
    have hscan := hfits.scan []
    rw [List.append_nil] at hscan
    exact ⟨Text.isSingle_of_scan hscan (by simp), hfits.ofText?⟩

/-- Two bars open and close the block; the bar in its text closes nothing, and the last is left. -/
theorem codeBlock_agrees_bars :
    ∃ token : Token, ((Cursor.atOffset "x: || py a | b|||".toList 2).next .label).1 = .ok token ∧
      token.kind = .codeBlock ∧ token.text = "|| py a | b||".toList ∧
      ∃ parts : CodeParts, ofText? token.text = some (.ok parts) ∧ parts.Delimited ∧
        parts.MakesUp token.text := by
  obtain ⟨token, htoken, hcheck⟩ := exists_ok_of_any
    (x := ((Cursor.atOffset "x: || py a | b|||".toList 2).next .label).1)
    (p := fun token => token.kind == .codeBlock && token.text == "|| py a | b||".toList)
    (by decide +kernel)
  rw [Bool.and_eq_true, beq_iff_eq, beq_iff_eq] at hcheck
  exact ⟨token, htoken, hcheck.1, hcheck.2, codeBlock_agrees.1 _ _ _ htoken hcheck.1⟩

end CodeParts

end DiagramText
