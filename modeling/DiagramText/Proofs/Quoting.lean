import DiagramText.Proofs.Lexeme.Shape
import DiagramText.Proofs.Reading

/-!
# Quoting, unquoting and reading agree

A quoted text ends at the first mark behind its start before which no backslash
stands (`Text.ClosesAt`).  That is where the search of the scanner ends
(`Text.findUnescaped?_iff_closesAt`), what quoting keeps free of such marks
(`Text.enclosed_escape`), and what unquoting undoes (`Text.unescape_escape`):
the three agree on every text (`Text.quoted_agrees`), and only a value that ends
with a backslash has no quoted form of its own.
-/

namespace DiagramText

open Recogniser

namespace Text

/-! ## Where a quoted text ends -/

/-- The first mark behind the offset `start` before which no backslash stands is at `close`. -/
structure ClosesAt (source : Text) (mark : Char) (start close : Nat) : Prop where
  behind : start < close
  stands : source[close]? = some mark
  bare : source[close - 1]? ≠ some '\\'
  first : ∀ offset, start < offset → offset < close → source[offset]? = some mark →
    source[offset - 1]? = some '\\'

/-- What stands before the start does not matter. -/
theorem closesAt_drop {source : Text} {mark : Char} {start length : Nat} :
    ClosesAt (source.drop start) mark 0 length ↔ source.ClosesAt mark start (start + length) := by
  constructor
  · rintro ⟨hbehind, hmark, hbare, hfirst⟩
    rw [List.getElem?_drop] at hmark hbare
    refine ⟨by omega, hmark, ?_, ?_⟩
    · rwa [Nat.add_sub_assoc hbehind]
    · intro offset hstart hclose hoffset
      obtain ⟨k, rfl⟩ := Nat.exists_eq_add_of_le (Nat.le_of_lt hstart)
      have hbefore := hfirst k (by omega) (by omega) (by rwa [List.getElem?_drop])
      rwa [List.getElem?_drop, ← Nat.add_sub_assoc (by omega)] at hbefore
  · rintro ⟨hbehind, hmark, hbare, hfirst⟩
    have hlength : 0 < length := by omega
    refine ⟨hlength, by rwa [List.getElem?_drop], ?_, ?_⟩
    · rwa [List.getElem?_drop, ← Nat.add_sub_assoc hlength]
    · intro k hk hlt hoffset
      rw [List.getElem?_drop] at hoffset ⊢
      rw [← Nat.add_sub_assoc (by omega)]
      exact hfirst (start + k) (by omega) (by omega) hoffset

/-- The mark right behind the start closes if no backslash stands there; else the search goes on
from it. -/
theorem closesAt_cons {mark c d : Char} {s : Text} {k : Nat} :
    ClosesAt (c :: d :: s) mark 0 (k + 1) ↔
      if c ≠ '\\' ∧ d = mark then k = 0
      else ∃ j, ClosesAt (d :: s) mark 0 (j + 1) ∧ j + 1 = k := by
  split
  · next hhere =>
      obtain ⟨hc, rfl⟩ := hhere
      constructor
      · rintro ⟨_, _, _, hfirst⟩
        refine Nat.eq_zero_of_not_pos fun hk => ?_
        have hslash := hfirst 1 Nat.one_pos (by omega) rfl
        exact hc (Option.some.inj hslash)
      · rintro rfl
        exact ⟨Nat.one_pos, rfl, by simpa using hc, by omega⟩
  · next hhere =>
      constructor
      · rintro ⟨_, hmark, hbare, hfirst⟩
        cases k with
        | zero =>
            refine absurd ⟨?_, Option.some.inj hmark⟩ hhere
            rintro rfl
            exact hbare rfl
        | succ j =>
            refine ⟨j, ⟨Nat.succ_pos j, hmark, hbare, fun offset hpos hlt hoffset => ?_⟩, rfl⟩
            obtain ⟨offset, rfl⟩ := Nat.exists_eq_succ_of_ne_zero (Nat.ne_of_gt hpos)
            exact hfirst (offset + 2) (by omega) (by omega) hoffset
      · rintro ⟨j, ⟨_, hmark, hbare, hfirst⟩, rfl⟩
        refine ⟨Nat.succ_pos _, hmark, hbare, fun offset hpos hlt hoffset => ?_⟩
        rcases offset with _ | _ | offset
        · omega
        · obtain rfl : d = mark := Option.some.inj hoffset
          refine Decidable.byContradiction fun hslash => ?_
          exact hhere ⟨fun hc => hslash (congrArg some hc), rfl⟩
        · exact hfirst (offset + 1) (Nat.succ_pos _) (by omega) hoffset

/-- The search for a mark without a backslash ends where a quoted text closes.  The character
before the text searched takes part, as it may be a backslash. -/
theorem findUnescaped?_iff_closesAt {mark c : Char} {s : Text} {k : Nat} :
    findUnescaped? [mark] (c == '\\') s = some k ↔ ClosesAt (c :: s) mark 0 (k + 1) := by
  induction s generalizing c k with
  | nil =>
      simp only [findUnescaped?, reduceCtorEq, false_iff]
      intro h
      cases h.stands
  | cons d s ih =>
      have hfront : (!(c == '\\') && [mark].isPrefixOf (d :: s)) = true ↔ c ≠ '\\' ∧ d = mark := by
        simp only [List.isPrefixOf, Bool.and_true, Bool.and_eq_true, Bool.not_eq_true',
          beq_eq_false_iff_ne, beq_iff_eq, eq_comm (a := mark)]
      rw [findUnescaped?, closesAt_cons]
      simp only [hfront]
      split
      · simp [eq_comm]
      · simp only [Option.map_eq_some_iff, ih]

/-- Behind a mark a quoted text is found up to where it closes. -/
theorem quotedText_iff_closesAt {marks : List QuoteMark} {mark : QuoteMark} {source : Text}
    {start length : Nat} (hmark : mark ∈ marks) (hstart : source[start]? = some mark.char) :
    quotedText marks (source.drop start) = .ok (some ⟨.quoted, length + 1⟩) ↔
      source.ClosesAt mark.char start (start + length) := by
  obtain ⟨rest, hrest⟩ : ∃ rest, source.drop start = mark.char :: rest :=
    List.head?_eq_some_iff.mp (by rw [List.head?_drop, hstart])
  have hfound := @findUnescaped?_iff_closesAt mark.char mark.char rest
  rw [beq_eq_false_iff_ne.mpr mark.char_ne_backslash] at hfound
  rw [← closesAt_drop, hrest, quotedText_eq_some]
  constructor
  · rintro ⟨other, _, t, body, hsplit, hbody, hlength⟩
    obtain ⟨hother, rfl⟩ := List.cons.inj hsplit
    rw [← hother] at hbody
    obtain rfl : length = body + 1 := by
      have := (Lexeme.mk.inj hlength).2
      omega
    exact hfound.mp hbody
  · intro hcloses
    obtain ⟨body, rfl⟩ := Nat.exists_eq_succ_of_ne_zero (Nat.ne_of_gt hcloses.behind)
    exact ⟨mark, hmark, rest, body, rfl, hfound.mpr hcloses, by simp [Nat.add_comm 1]⟩

/-- A quoted text is unclosed where no such mark follows. -/
theorem quotedText_fails_iff {marks : List QuoteMark} {mark : QuoteMark} {source : Text}
    {start : Nat} (hmark : mark ∈ marks) (hstart : source[start]? = some mark.char) :
    (∃ fault, quotedText marks (source.drop start) = .error fault) ↔
      ¬∃ close, source.ClosesAt mark.char start close := by
  have hfound : (∃ close, source.ClosesAt mark.char start close) ↔
      ∃ length, quotedText marks (source.drop start) = .ok (some ⟨.quoted, length + 1⟩) := by
    simp only [quotedText_iff_closesAt hmark hstart]
    constructor
    · rintro ⟨close, h⟩
      obtain ⟨length, rfl⟩ := Nat.exists_eq_add_of_lt h.behind
      exact ⟨length + 1, h⟩
    · rintro ⟨length, h⟩
      exact ⟨_, h⟩
  rw [hfound]
  obtain ⟨rest, hrest⟩ : ∃ rest, source.drop start = mark.char :: rest :=
    List.head?_eq_some_iff.mp (by rw [List.head?_drop, hstart])
  have hopens : marks.any (·.char == mark.char) = true :=
    List.any_eq_true.mpr ⟨mark, hmark, beq_self_eq_true _⟩
  simp only [hrest, quotedText, hopens, if_true]
  cases quotedBody? mark.char rest with
  | none => simp
  | some body => simp

/-! ## What quoting writes -/

/-- A mark gets a backslash. -/
theorem escape_mark (mark : Char) (s : Text) :
    escape (mark :: s) [mark] = '\\' :: mark :: escape s [mark] := by
  simp [escape_singleton]

/-- Every other character stays. -/
theorem escape_cons {mark c : Char} (h : c ≠ mark) (s : Text) :
    escape (c :: s) [mark] = c :: escape s [mark] := by
  simp [escape_singleton, h]

/-- What is escaped does not begin with the mark. -/
theorem head?_escape {mark : Char} (hmark : mark ≠ '\\') (s : Text) :
    (s.escape [mark]).head? ≠ some mark := by
  cases s with
  | nil => simp [escape_singleton]
  | cons c s =>
      by_cases hc : c = mark
      · subst hc
        simp [escape_mark, hmark.symm]
      · simp [escape_cons hc, hc]

/-- Unquoting takes away the backslashes that quoting puts in, and no others. -/
theorem unescape_escape {mark : Char} (hmark : mark ≠ '\\') (s : Text) :
    unescape (s.escape [mark]) [mark] = s := by
  induction s with
  | nil => rfl
  | cons c s ih =>
      by_cases hc : c = mark
      · subst hc
        rw [escape_mark, unescape_mark, ih]
      · rw [escape_cons hc, unescape_cons fun _ => head?_escape hmark s, ih]

theorem unquote?_quote (mark : QuoteMark) (value : Text) :
    unquote? (value.quote mark.text) = some value := by
  have hbody : (value.escape [mark.char] ++ [mark.char]).dropLast = value.escape [mark.char] :=
    List.dropLast_concat
  simp only [quote, QuoteMark.text, unquote?, List.cons_append, List.nil_append, hbody,
    unescape_escape mark.char_ne_backslash]

/-- A value that does not end with a backslash may stand between two marks once it is escaped.  The
induction says so also behind a backslash, where the value must have a character to follow it. -/
theorem enclosed_escape {mark : Char} (hmark : mark ≠ '\\') {s : Text} {escaped : Bool}
    (hsome : s = [] → escaped = false) (hlast : s.getLast? ≠ some '\\') :
    Enclosed mark escaped (s.escape [mark]) := by
  induction s generalizing escaped with
  | nil => exact hsome rfl
  | cons c s ih =>
      have hlater : s.getLast? ≠ some '\\' := by
        cases s with
        | nil => simp
        | cons d s => rwa [List.getLast?_cons_cons] at hlast
      by_cases hc : c = mark
      · subst hc
        rw [escape_mark]
        refine ⟨fun h => absurd h.symm hmark, fun _ => rfl, ?_⟩
        exact ih (fun _ => beq_eq_false_iff_ne.mpr hmark) hlater
      · rw [escape_cons hc]
        refine ⟨fun h => absurd h hc, ih ?_ hlater⟩
        rintro rfl
        exact beq_eq_false_iff_ne.mpr fun h => hlast (congrArg some h)

end Text

open Text

/-! ## Quoted tokens -/

/-- The token stands between a mark at `start` and the one at `close` that ends it, and quoting its
value with that mark gives its text again. -/
structure Token.QuotedAt (source : Text) (token : Token) (mark : QuoteMark) (start close : Nat) :
    Prop where
  front : token.text.head? = some mark.char
  closes : source.ClosesAt mark.char start close
  span : token.span = .ofOffsets source start (close + 1)
  text : token.text = source.slice start (close + 1)
  restored : ∃ value, unquote? token.text = some value ∧ value.quote mark.text = token.text

/-- A quoted text that is cut from a source ends where it closes there. -/
theorem IsQuoted.quotedAt {marks : List QuoteMark} {source : Text} {token : Token}
    (h : IsQuoted marks token.text) (hcut : token.CutFrom source) :
    ∃ mark start close, token.QuotedAt source mark start close := by
  obtain ⟨mark, _, body, htext, henclosed⟩ := h
  obtain ⟨start, hprefix, hspan⟩ := hcut
  have hvalue : unquote? (mark.char :: body ++ [mark.char]) = some (unescape body [mark.char]) := by
    simp [unquote?]
  have hrestored := Text.quote_unquote? mark.char_ne_backslash henclosed
  rw [hvalue, Option.getD_some] at hrestored
  have hslice := Span.text_ofOffsets hprefix
  rw [Span.text, Span.start_ofOffsets, Span.stop_ofOffsets] at hslice
  have hlength : token.text.length = body.length + 1 + 1 := by simp [htext]
  have hstop : (start : Int) + token.text.length = (start + (body.length + 1) : Nat) + 1 := by
    omega
  obtain ⟨rest, hrest⟩ := hprefix
  rw [htext, List.cons_append, List.cons_append, List.append_assoc] at hrest
  have hcloses : source.ClosesAt mark.char start (start + (body.length + 1)) := by
    refine closesAt_drop.mp ?_
    rw [← hrest]
    refine findUnescaped?_iff_closesAt.mp ?_
    rw [beq_eq_false_iff_ne.mpr mark.char_ne_backslash]
    exact findUnescaped?_eq_some.mpr ⟨body, rest, rfl, rfl, henclosed⟩
  refine ⟨mark, start, _, by rw [htext]; rfl, hcloses, hstop ▸ hspan, ?_, ?_⟩
  · rw [← hstop]
    exact hslice.symm
  · rw [htext]
    exact ⟨_, hvalue, hrestored⟩

/-- The quoted form of a value is a quoted text unless the value ends with a backslash. -/
theorem isQuoted_quote {mark : QuoteMark} {value : Text} :
    IsQuoted [.double, .single] (value.quote mark.text) ↔ value.getLast? ≠ some '\\' := by
  constructor
  · intro h
    have hlast := h.getLast?_unquote?
    rwa [unquote?_quote, Option.getD_some] at hlast
  · intro hlast
    refine ⟨mark, by cases mark <;> simp, value.escape mark.text, rfl, ?_⟩
    exact enclosed_escape mark.char_ne_backslash (fun _ => rfl) hlast

/-- Only the quoted form of a value that ends with a backslash is not read as one token. -/
theorem isSingle_quote {mark : QuoteMark} {value : Text} :
    IsSingle (value.quote mark.text) .declaration .quoted ↔ value.getLast? ≠ some '\\' := by
  rw [← isQuoted_quote]
  constructor
  · rintro ⟨htokens, _⟩
    have hread := readFrom_of_tokenize (htokens ▸ List.mem_cons_self)
    exact .of_spells hread.spells
  · intro h
    have hfirst := h.firstOf [.ofLength .connection connectionLength,
      punctuation ['\x7b', '\x7d', '(', ')', ':', '.', '[', ']'],
      .ofLength .ident namePhrase.length] Begins.nil
    rw [List.append_nil] at hfirst
    exact isSingle_of_scan ((Mode.scan_eq_ok (List.cons_ne_nil _ _)).mpr hfirst) (by simp)

/-- Quoting, unquoting and reading agree: a value is what its quoted form stands for; a quoted token
ends where it closes, and is the quoted form of its value; a mark is unclosed where none closes it;
and a quoted form is read as one token unless its value ends with a backslash. -/
theorem Text.quoted_agrees :
    (∀ (mark : QuoteMark) (value : Text), unquote? (value.quote mark.text) = some value) ∧
      (∀ (source : Text) (offset : Int) (mode : Mode) (token : Token), mode.IsLine →
        ((Cursor.atOffset source offset).next mode).1 = .ok token → token.kind = .quoted →
          ∃ mark start close, token.QuotedAt source mark start close) ∧
      (∀ (source : Text) (start : Nat) (marks : List QuoteMark), ∀ mark ∈ marks,
        source[start]? = some mark.char →
          ((∃ fault, quotedText marks (source.drop start) = .error fault) ↔
            ¬∃ close, source.ClosesAt mark.char start close)) ∧
      ∀ (mark : QuoteMark) (value : Text),
        IsSingle (value.quote mark.text) .declaration .quoted ↔ value.getLast? ≠ some '\\' := by
  refine ⟨unquote?_quote, ?_, fun source start marks mark => quotedText_fails_iff,
    fun mark value => isSingle_quote⟩
  intro source offset mode token hmode hnext hkind
  have hread := Cursor.readFrom_atOffset hnext
  have hspells := hread.spells
  rw [hkind] at hspells
  rcases hmode with rfl | rfl
  · exact (IsQuoted.of_spells hspells).quotedAt hread.cutFrom
  · exact (IsQuoted.of_spells_label hspells).quotedAt hread.cutFrom

/-- Behind the colon of a declaration and a blank; the mark after the backslash ends nothing. -/
theorem Text.quoted_agrees_escaped :
    ∃ token : Token, ((Cursor.atOffset "x: \"a\\\"\" b".toList 2).next .label).1 = .ok token ∧
      token.kind = .quoted ∧ token.text = "\"a\\\"\"".toList ∧
      ∃ mark start close, token.QuotedAt "x: \"a\\\"\" b".toList mark start close := by
  obtain ⟨token, htoken, hcheck⟩ := exists_ok_of_any
    (x := ((Cursor.atOffset "x: \"a\\\"\" b".toList 2).next .label).1)
    (p := fun token => token.kind == .quoted && token.text == "\"a\\\"\"".toList)
    (by decide +kernel)
  rw [Bool.and_eq_true, beq_iff_eq, beq_iff_eq] at hcheck
  exact ⟨token, htoken, hcheck.1, hcheck.2,
    quoted_agrees.2.1 _ _ _ _ (.inr rfl) htoken hcheck.1⟩

end DiagramText
