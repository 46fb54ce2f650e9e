import DiagramText.Proofs.Lexeme.Shape
import DiagramText.Proofs.Reading

/-!
# Names stop at connections and nowhere too early

Dashes stand in names and begin connections.  A name is runs of elements with
gaps between them (`Phrase.Spaced`); it goes over no connection (`freeUpTo_extent`),
and it is as long as it can be: where it ends a connection begins, or no element
does, not even behind the gap that may follow (`stopsName_of_extent`).
-/

namespace DiagramText

open Recogniser Text

/-! ## Runs and gaps -/

namespace Phrase

variable {p : Phrase}

/-- One or more elements in a row. -/
inductive IsRun (p : Phrase) : Text → Prop
  | one {element : Text} (here : p.IsElement element) : IsRun p element
  | cons {element s : Text} (here : p.IsElement element) (later : IsRun p s) :
      IsRun p (element ++ s)

/-- A run of elements, and behind it any number of gaps with a run of elements behind each. -/
inductive Spaced (p : Phrase) : Text → Prop
  | run {s : Text} (here : p.IsRun s) : Spaced p s
  | gap {first blanks later : Text} (here : p.IsRun first) (some : blanks ≠ [])
      (blank : blanks.all p.isGap = true) (rest : Spaced p later) :
      Spaced p (first ++ blanks ++ later)

/-- An element begins at the front, whether one may begin there or not. -/
def ElementAhead (p : Phrase) (s : Text) : Prop :=
  ∃ element, p.IsElement element ∧ element <+: s

/-- An element may stand before a text, with or without a gap between them. -/
theorem Spaced.cons {element blanks s : Text} (h : p.Spaced s) (helement : p.IsElement element)
    (hblank : blanks.all p.isGap = true) : p.Spaced (element ++ (blanks ++ s)) := by
  by_cases hblanks : blanks = []
  · subst hblanks
    rw [List.nil_append]
    cases h with
    | run here => exact .run (.cons helement here)
    | gap here some blank rest =>
        rw [← List.append_assoc, ← List.append_assoc]
        exact .gap (.cons helement here) some blank rest
  · rw [← List.append_assoc]
    exact .gap (.one helement) hblanks hblank h

/-- Runs with gaps between them, perhaps behind a gap. -/
def Led (p : Phrase) (s : Text) : Prop :=
  ∃ blanks rest, blanks.all p.isGap = true ∧ p.Spaced rest ∧ s = blanks ++ rest

/-- What is spaced is led by an element, or empty. -/
theorem Spaced.led {s : Text} (h : p.Spaced s) : p.Led s :=
  ⟨[], s, rfl, h, rfl⟩

/-- One more element in front of what is led. -/
theorem Led.cons {element s : Text} (helement : p.IsElement element) (h : s ≠ [] → p.Led s) :
    p.Spaced (element ++ s) := by
  by_cases hs : s = []
  · subst hs
    rw [List.append_nil]
    exact .run (.one helement)
  · obtain ⟨blanks, rest, hblank, hrest, rfl⟩ := h hs
    exact hrest.cons helement hblank

/-- A row is runs and gaps, perhaps with a gap before the first run. -/
theorem Row.led {s : Text} (h : p.Row s) (hs : s ≠ []) : p.Led s := by
  induction h with
  | nil => exact absurd rfl hs
  | @escaped c s escapable _ ih => exact (Led.cons (.inr ⟨c, rfl, escapable⟩) ih).led
  | @body c s here _ _ ih => exact (Led.cons (.inl ⟨c, rfl, here⟩) ih).led
  | @gap c s here some _ ih =>
      obtain ⟨blanks, rest, hblank, hrest, rfl⟩ := ih some
      exact ⟨c :: blanks, rest, by simp [here, hblank], hrest, rfl⟩

/-- No element begins with a gap. -/
theorem Regular.not_elementAhead (hp : p.Regular) {c : Char} {s : Text} (hc : p.isGap c = true) :
    ¬p.ElementAhead (c :: s) := by
  obtain ⟨hbody, hslash⟩ := hp.gap c hc
  rintro ⟨_, ⟨d, rfl, hd⟩ | ⟨d, rfl, _⟩, t, ht⟩
  · obtain rfl : d = c := (List.cons.inj ht).1
    rw [hbody] at hd
    cases hd
  · exact hslash (List.cons.inj ht).1.symm

/-- A phrase that is a whole text is runs with gaps between them. -/
theorem Regular.spaced_of_length (hp : p.Regular) {s : Text} (hs : s ≠ [])
    (h : p.length s = s.length) : p.Spaced s := by
  obtain ⟨hrow, hfront⟩ := row_of_length hs h
  obtain ⟨blanks, rest, hblank, hrest, rfl⟩ := hrow.led hs
  cases blanks with
  | nil => exact hrest
  | cons c blanks =>
      have hc : p.isGap c = true := by
        rw [List.all_cons, Bool.and_eq_true] at hblank
        exact hblank.1
      exact absurd hfront (hp.not_elementAhead hc)

/-! ## Where a phrase ends -/

/-- Nothing is counted where no element may begin behind the gap ahead. -/
theorem Regular.extent_eq_zero_iff_beginsAt (hp : p.Regular) {s : Text} :
    p.extent 0 s = 0 ↔ p.beginsAt (s.dropWhile p.isGap) = false := by
  induction s with
  | nil => simp [extent, beginsAt]
  | cons c s ih =>
      by_cases hc : p.isGap c = true
      · obtain ⟨hbody, hslash⟩ := hp.gap c hc
        have hstep : p.extent 0 (c :: s) = p.extent 1 s := by
          rw [extent_cons]
          simp [hbody, hslash, hc]
        rw [hstep, extent_eq_zero_iff, ih, List.dropWhile_cons_of_pos hc]
      · have hlength : p.length (c :: s) = p.extent 0 (c :: s) := by
          rw [hp.length_eq]
          exact if_neg hc
        rw [List.dropWhile_cons_of_neg hc, ← hlength, ← Bool.not_eq_true, ← length_ne_zero_iff,
          ne_eq, Classical.not_not]

/-- Where no element may begin there is none, or the text is barred. -/
theorem not_elementAhead_or_isBarred {s : Text} (h : p.beginsAt s = false) :
    ¬p.ElementAhead s ∨ p.isBarred s = true := by
  by_cases hahead : p.ElementAhead s
  · obtain ⟨_, ⟨c, rfl, hc⟩ | ⟨c, rfl, hc⟩, t, rfl⟩ := hahead
    · refine .inr ?_
      simp only [List.singleton_append, beginsAt, hc, Bool.true_and, Bool.or_eq_false_iff,
        Bool.not_eq_false'] at h
      exact h.2
    · simp [beginsAt, hc] at h
  · exact .inl hahead

end Phrase

/-! ## Connections -/

/-- A connection begins at the front. -/
def Text.OpensConnection (s : Text) : Prop :=
  ∃ op direction, IsOp op direction ∧ op <+: s

/-- A connection opens where its scan finds a length. -/
theorem opensConnection_iff {s : Text} : s.OpensConnection ↔ 0 < connectionLength s := by
  rw [connectionLength_pos_iff]
  constructor
  · rintro ⟨_, _, hop, t, rfl⟩
    cases hop with
    | bidirectional n =>
        exact ⟨List.replicate n '-' ++ ['>'] ++ t, .inl (by simp [List.replicate_succ])⟩
    | reverse n => exact ⟨List.replicate n '-' ++ t, .inl (by simp [List.replicate_succ])⟩
    | forward n =>
        cases n with
        | zero => exact ⟨t, .inr (.inr rfl)⟩
        | succ n =>
            exact ⟨List.replicate n '-' ++ ['>'] ++ t, .inr (.inl (by simp [List.replicate_succ]))⟩
    | undirected n => exact ⟨List.replicate n '-' ++ t, .inr (.inl (by simp [List.replicate_succ]))⟩
  · rintro ⟨rest, rfl | rfl | rfl⟩
    · exact ⟨_, _, .reverse 0, rest, rfl⟩
    · exact ⟨_, _, .undirected 0, rest, rfl⟩
    · exact ⟨_, _, .forward 0, rest, rfl⟩

/-- A name is barred where a connection opens. -/
theorem isBarred_namePhrase {s : Text} : namePhrase.isBarred s = true ↔ s.OpensConnection := by
  rw [opensConnection_iff]
  exact decide_eq_true_iff

/-- A connection begins with an arrowhead or a dash. -/
theorem not_opensConnection {c : Char} {s : Text} (hc : c ≠ '<' ∧ c ≠ '-') :
    ¬OpensConnection (c :: s) := by
  rw [opensConnection_iff, connectionLength_pos_iff]
  rintro ⟨rest, h | h | h⟩
  · exact hc.1 (List.cons.inj h).1
  · exact hc.2 (List.cons.inj h).1
  · exact hc.2 (List.cons.inj h).1

/-- No connection begins at any of the first `n` characters. -/
def Text.FreeUpTo (s : Text) (n : Nat) : Prop :=
  ∀ k < n, ¬OpensConnection (s.drop k)

/-- One more character in front, where no connection opens. -/
theorem Text.FreeUpTo.cons {c : Char} {s : Text} {n m : Nat} (h : FreeUpTo s n)
    (hhere : ¬OpensConnection (c :: s)) (hm : m ≤ n + 1) : FreeUpTo (c :: s) m := by
  intro k hk
  cases k with
  | zero => exact hhere
  | succ k => exact h k (by omega)

/-- No connection begins within what is counted of a name.  The induction follows the count: where
an element is taken no connection begins, and none begins with an escaped character or a gap. -/
theorem freeUpTo_extent {pending : Nat} {s : Text} :
    FreeUpTo s (namePhrase.extent pending s - pending) := by
  have hnone : ∀ s : Text, FreeUpTo s 0 := fun s k hk => absurd hk (Nat.not_lt_zero k)
  have hfree : ∀ {c : Char} {s : Text},
      (namePhrase.isBody c && !namePhrase.isBarred (c :: s)) = true → ¬OpensConnection (c :: s) := by
    intro c s hc hopens
    rw [isBarred_namePhrase.mpr hopens] at hc
    simp at hc
  fun_induction Phrase.extent namePhrase pending s with
  | case1 => simpa using hnone []
  | case2 pending c hc => exact (hnone []).cons (hfree hc) (by omega)
  | case3 => simpa using hnone _
  | case4 pending c d rest hc ih =>
      obtain ⟨rfl, rfl⟩ : c = '\\' ∧ d = '#' := by simpa [namePhrase] using hc
      have hlater := ih.cons (c := '#') (not_opensConnection (by decide)) (Nat.le_refl _)
      exact hlater.cons (not_opensConnection (by decide)) (by omega)
  | case5 pending c d rest _ hc ih => exact ih.cons (hfree hc) (by omega)
  | case6 pending c d rest _ _ hc ih =>
      refine ih.cons (not_opensConnection ⟨?_, ?_⟩) (by omega)
      · rintro rfl
        exact absurd hc (by decide)
      · rintro rfl
        exact absurd hc (by decide)
  | case7 => simpa using hnone _

/-! ## Names of a source -/

/-- No name goes on at the front: a connection begins there, or no element does, and none begins
behind the longest gap from there on, unless a connection begins with it. -/
def Text.StopsName (s : Text) : Prop :=
  OpensConnection s ∨
    ¬namePhrase.ElementAhead s ∧
      (¬namePhrase.ElementAhead (s.dropWhile namePhrase.isGap) ∨
        OpensConnection (s.dropWhile namePhrase.isGap))

/-- The token is a name of the source from the offset `start` up to `stop`: runs and gaps, none of
which begins a connection, and with nothing behind that could go on with them. -/
structure Token.NameAt (source : Text) (token : Token) (start stop : Nat) : Prop where
  tile : token.Tile source start stop
  spaced : namePhrase.Spaced token.text
  free : ∀ offset, start ≤ offset → offset < stop → ¬OpensConnection (source.drop offset)
  stops : StopsName (source.drop stop)

/-- No name goes on where nothing more is counted of it. -/
theorem stopsName_of_extent {s : Text} (h : namePhrase.extent 0 s = 0) : StopsName s := by
  have hbehind := Phrase.not_elementAhead_or_isBarred
    (Phrase.regular_namePhrase.extent_eq_zero_iff_beginsAt.mp h)
  rw [isBarred_namePhrase] at hbehind
  by_cases hahead : namePhrase.ElementAhead s
  · -- An element ahead is no gap, so the text begins with it even when the gap ahead is dropped.
    have hsame : s.dropWhile namePhrase.isGap = s := by
      cases s with
      | nil => rfl
      | cons c s =>
          refine List.dropWhile_cons_of_neg fun hc => ?_
          exact Phrase.regular_namePhrase.not_elementAhead hc hahead
    rw [hsame] at hbehind
    exact .inl (hbehind.resolve_left (fun hnone => hnone hahead))
  · exact .inr ⟨hahead, hbehind⟩

/-- A name that is read goes over no connection and is as long as it can be. -/
theorem name_maximal {source : Text} {offset : Int} {token : Token}
    (h : ((Cursor.atOffset source offset).next .declaration).1 = .ok token)
    (hkind : token.kind = .ident) : ∃ start stop, token.NameAt source start stop := by
  have hread := Cursor.readFrom_atOffset h
  have hname := IsName.of_spells (hkind ▸ hread.spells)
  obtain ⟨cursor, hon, htoken⟩ := hread
  have htile := hon.tile htoken (by simp [hkind])
  obtain ⟨⟨kind, length⟩, hscan, rfl⟩ := Cursor.token_eq_ok.mp htoken
  obtain rfl : kind = .ident := hkind
  obtain ⟨_, _, _, rfl, hne⟩ := Mode.scan_ident.mp hscan
  have hle := (Mode.scan_bounds hscan).1
  rw [Cursor.offset_advance, List.length_take_of_le hle] at htile
  have hextent : namePhrase.length cursor.rest = namePhrase.extent 0 cursor.rest :=
    if_pos (Phrase.length_ne_zero_iff.mp hne)
  refine ⟨_, _, htile, Phrase.regular_namePhrase.spaced_of_length hname.some hname.length, ?_, ?_⟩
  · intro offset hstart hstop
    obtain ⟨k, rfl⟩ := Nat.exists_eq_add_of_le hstart
    have hk : k < namePhrase.length cursor.rest := Nat.lt_of_add_lt_add_left hstop
    rw [← List.drop_drop, ← hon.rest]
    exact @freeUpTo_extent 0 _ k (hextent ▸ hk)
  · rw [← List.drop_drop, ← hon.rest]
    exact stopsName_of_extent (Phrase.regular_namePhrase.extent_drop_length hne)

/-- A dash within the name is no connection; the comma and the blank before the arrow are left. -/
theorem name_maximal_dashed :
    ∃ token : Token, ((Cursor.atOffset "a-b, c, -> d".toList 0).next .declaration).1 = .ok token ∧
      token.kind = .ident ∧ token.text = "a-b, c".toList ∧
      ∃ start stop, token.NameAt "a-b, c, -> d".toList start stop := by
  obtain ⟨token, htoken, hcheck⟩ := exists_ok_of_any
    (x := ((Cursor.atOffset "a-b, c, -> d".toList 0).next .declaration).1)
    (p := fun token => token.kind == .ident && token.text == "a-b, c".toList) (by decide +kernel)
  rw [Bool.and_eq_true, beq_iff_eq, beq_iff_eq] at hcheck
  exact ⟨token, htoken, hcheck.1, hcheck.2, name_maximal htoken hcheck.1⟩

end DiagramText
