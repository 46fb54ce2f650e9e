import DiagramText.Proofs.Lexeme.Front
import DiagramText.Proofs.Reader.Sight
import DiagramText.Proofs.Text.Inverse

/-!
# Tokens of statements that are spelled again

What a mode spells has a shape of its own, whatever followed it where it was
read: a name is one phrase, a quoted text stands between two marks, a connection
and an import are what their lengths say.  A text of that shape is scanned as
the same token before any text that does not go on with it.  Both halves are
stated for each kind of token, the first as `of_spells`, the second as `scan`.
-/

namespace DiagramText

open Recogniser

namespace Text

/-- The stretch at the front of a shorter text is as much of the stretch as the text has. -/
theorem run_take (p : Char → Bool) (s : Text) (n : Nat) : run p (s.take n) = min n (run p s) := by
  induction s generalizing n with
  | nil => simp [run]
  | cons c s ih =>
      cases n with
      | zero => simp [run]
      | succ n =>
          rw [List.take_succ_cons, run_cons, run_cons, ih]
          split <;> omega

/-- A stretch that a text begins with is as long within the text, if the text is as long. -/
theorem run_of_append {p : Char → Bool} {x rest : Text} :
    run p x = min x.length (run p (x ++ rest)) := by
  have := run_take p (x ++ rest) x.length
  rwa [List.take_left] at this

/-- A run is the whole text if all of its characters are wanted. -/
theorem run_eq_length_iff {p : Char → Bool} {x : Text} : run p x = x.length ↔ x.all p = true := by
  induction x with
  | nil => simp
  | cons c x ih =>
      have := run_le_length p x
      rw [run_cons, List.all_cons, Bool.and_eq_true, ← ih, List.length_cons]
      split
      · next hc => simp [hc]
      · next hc => simp [hc]

end Text

open Text

namespace Mode

/-- What is spelled is some text. -/
theorem Spells.ne_nil {mode : Mode} {kind : TokenKind} {x : Text} (h : mode.Spells kind x)
    (hkind : kind ≠ .eof) : x ≠ [] := by
  obtain ⟨rest, hscan⟩ := h
  obtain ⟨_, heof, hpos⟩ := scan_bounds hscan
  exact List.ne_nil_of_length_pos (hpos.mpr fun hnil => hkind (heof.mpr hnil))

/-- Where a token is spelled the recognisers of the mode find it. -/
theorem Spells.firstOf {mode : Mode} {kind : TokenKind} {x : Text} (h : mode.Spells kind x)
    (hkind : kind ≠ .eof) :
    ∃ rest, firstOf mode.recognisers (x ++ rest) = .ok (some ⟨kind, x.length⟩) := by
  have hx := h.ne_nil hkind
  obtain ⟨rest, hscan⟩ := h
  exact ⟨rest, (scan_eq_ok (by simp [hx])).mp hscan⟩

end Mode

/-! ## Names -/

/-- The text is one name. -/
structure IsName (x : Text) : Prop where
  some : x ≠ []
  length : namePhrase.length x = x.length

/-- What may follow a name: nothing that goes on with it. -/
structure NameEnds (u : Text) : Prop where
  extent : namePhrase.extent 0 u = 0
  begins : u.Begins fun c => c ≠ '#' ∧ c ≠ '-' ∧ c ≠ '>' ∧ c ≠ '\x22'

theorem NameEnds.nil : NameEnds [] :=
  ⟨rfl, Text.Begins.nil⟩

/-- Marks of punctuation end a name. -/
theorem NameEnds.mark {c : Char} (hc : c ∈ ['(', ')', ':', '.', ']']) (u : Text) :
    NameEnds (c :: u) := by
  simp only [List.mem_cons, List.not_mem_nil, or_false] at hc
  rcases hc with rfl | rfl | rfl | rfl | rfl <;>
    exact ⟨Phrase.extent_stop (by decide) (by decide) (by decide),
      Text.begins_cons.mpr (by decide)⟩

/-- A connection after a space ends a name. -/
theorem NameEnds.connection {u : Text} (h : 0 < connectionLength u) : NameEnds (' ' :: u) := by
  refine ⟨?_, Text.begins_cons.mpr (by decide)⟩
  have hbarred : namePhrase.isBarred u = true := by simpa [namePhrase] using h
  have hspace : (' ' == '\\') = false := by decide
  have hbody : namePhrase.isBody ' ' = false := by decide
  have hgap : namePhrase.isGap ' ' = true := by decide
  rw [Phrase.extent_cons, hspace, hbody, hgap]
  simp only [Bool.false_and, Bool.false_eq_true, if_false, if_true]
  obtain ⟨rest, rfl | rfl | rfl⟩ := connectionLength_pos_iff.mp h <;>
    exact Phrase.extent_barred hbarred (by decide) (by decide)

/-- No connection begins within a name and ends after it. -/
theorem NameEnds.connectionLength {u : Text} (h : NameEnds u) (c : Char) (s : Text) :
    DiagramText.connectionLength (c :: s ++ u) = DiagramText.connectionLength (c :: s) :=
  connectionLength_append (h.begins.imp fun _ hc => ⟨hc.2.1, hc.2.2.1⟩) (List.cons_ne_nil c s)

/-- A name of a declaration is one by its characters. -/
theorem IsName.of_spells {x : Text} (h : Mode.declaration.Spells .ident x) : IsName x := by
  refine ⟨h.ne_nil (by decide), ?_⟩
  obtain ⟨rest, hscan⟩ := h
  obtain ⟨_, _, _, hlength, hne⟩ := Mode.scan_ident.mp hscan
  have htake := Phrase.regular_namePhrase.length_take (hlength ▸ hne)
  rwa [hlength, List.take_left] at htake

/-- A name is scanned where it ends. -/
theorem IsName.scan {x u : Text} (h : IsName x) (hu : NameEnds u) :
    Mode.declaration.scan (x ++ u) = .ok ⟨.ident, x.length⟩ := by
  obtain ⟨hsome, hlength⟩ := h
  obtain ⟨c, s, rfl⟩ := List.exists_cons_of_ne_nil hsome
  have hbegins : namePhrase.beginsAt (c :: s) = true := by
    refine Phrase.length_ne_zero_iff.mp ?_
    rw [hlength]
    exact Nat.succ_ne_zero _
  obtain ⟨hshared, hmark⟩ := namePhrase_front hbegins
  have hconnection : connectionLength (c :: s ++ u) = 0 := by
    rw [hu.connectionLength]
    simp only [Phrase.beginsAt, Bool.or_eq_true, Bool.and_eq_true] at hbegins
    rcases hbegins with ⟨hslash, _⟩ | ⟨_, hbarred⟩
    · obtain rfl := beq_iff_eq.mp hslash
      rfl
    · simpa [namePhrase] using hbarred
  have hphrase : namePhrase.length (c :: s ++ u) = (c :: s).length := by
    refine (Phrase.regular_namePhrase.length_append hu.extent ?_ ?_ (List.cons_ne_nil c s)).trans
      hlength
    · intro d hd hescapable
      exact absurd (by simpa [namePhrase] using hescapable) (hu.begins d hd).1
    · intro d t _
      simp only [namePhrase, hu.connectionLength]
  have hpunctuation : punctuation ['\x7b', '\x7d', '(', ')', ':', '.', '[', ']'] (c :: s ++ u) =
      .ok none := by
    refine Mode.punctuation_eq_none (fun hmem => ?_) (s ++ u)
    have hall : ['\x7b', '\x7d', '(', ')', ':', '.', '[', ']'].all
        (fun c => sharedFronts.contains c || markFronts.contains c) = true := by decide
    have := List.all_eq_true.mp hall c hmem
    simp only [Bool.or_eq_true, List.contains_iff_mem] at this
    exact this.elim hshared hmark
  refine (Mode.scan_eq_ok (by simp)).mpr ?_
  rw [Mode.recognisers, List.cons_append, Mode.firstOf_of_not_shared hshared]
  refine firstOf_cons_eq_some.mpr (.inr ⟨ofLength_eq_none.mpr hconnection, ?_⟩)
  refine firstOf_cons_eq_some.mpr (.inr ⟨hpunctuation, ?_⟩)
  refine firstOf_cons_eq_some.mpr (.inl (ofLength_eq_some.mpr ?_))
  exact ⟨congrArg _ hphrase.symm, hphrase ▸ Nat.succ_ne_zero _⟩

/-! ## Quoted texts -/

/-- The text stands between two of the marks. -/
def IsQuoted (marks : List QuoteMark) (x : Text) : Prop :=
  ∃ mark ∈ marks, ∃ body, x = mark.char :: body ++ [mark.char] ∧ Enclosed mark.char false body

/-- What a mode of the line finds as a quoted text is one by its characters. -/
theorem IsQuoted.of_firstOf {marks : List QuoteMark} {others : List Recogniser} {x rest : Text}
    (hothers : ∀ recogniser ∈ others, ∃ kind ≠ .quoted, OfKind kind recogniser)
    (h : firstOf (Mode.shared marks ++ others) (x ++ rest) = .ok (some ⟨.quoted, x.length⟩)) :
    IsQuoted marks x := by
  rw [Mode.shared, List.cons_append, firstOf_skip ofKind_ofLength (by simp), List.cons_append,
    lineComment, firstOf_skip ofKind_ofLength (by simp), List.cons_append,
    firstOf_skip ofKind_blockComment (by simp), List.cons_append] at h
  rcases firstOf_cons_eq_some.mp h.2.2.2 with hquoted | ⟨_, hlater⟩
  · obtain ⟨mark, hmark, t, k, hs, hbody, hlength⟩ := quotedText_eq_some.mp hquoted
    obtain ⟨body, t', rfl, rfl, henclosed⟩ := findUnescaped?_eq_some.mp hbody
    refine ⟨mark, hmark, body, ?_, henclosed⟩
    have htake := congrArg (List.take x.length) hs
    rw [List.take_left, (Lexeme.mk.inj hlength).2] at htake
    rw [htake, Nat.add_comm 1, Nat.add_assoc, List.take_succ_cons, List.cons_append,
      List.take_length_add_append]
    rfl
  · have hkind : TokenKind.quoted ≠ .quoted := by
      refine kind_of_firstOf (P := fun kind => kind ≠ .quoted) ?_ hlater
      rw [List.singleton_append, List.forall_mem_cons]
      exact ⟨⟨.importRef, by simp, ofKind_ofLength⟩, hothers⟩
    exact absurd rfl hkind

/-- A quoted text of a declaration stands between quotes of either kind. -/
theorem IsQuoted.of_spells {x : Text} (h : Mode.declaration.Spells .quoted x) :
    IsQuoted [.double, .single] x := by
  obtain ⟨rest, hfirst⟩ := h.firstOf (by decide)
  refine .of_firstOf ?_ hfirst
  simp only [List.forall_mem_cons, List.not_mem_nil, false_implies, implies_true, and_true]
  exact ⟨⟨.connection, by simp, ofKind_ofLength⟩, ⟨.punct, by simp, ofKind_ofLength⟩,
    ⟨.ident, by simp, ofKind_ofLength⟩⟩

/-- No block comment begins at a quoted text. -/
theorem blockComment_quoted {mark : QuoteMark} {body u : Text} (h : Enclosed mark.char false body)
    (hu : u.Begins (· ≠ '\x22')) : blockComment (mark.char :: body ++ [mark.char] ++ u) = .ok none := by
  have hfence : commentFence.isPrefixOf (mark.char :: body ++ [mark.char] ++ u) = false := by
    cases mark with
    | single => rfl
    | double =>
        cases body with
        | nil =>
            cases u with
            | nil => rfl
            | cons c u =>
                have hc : ¬ '\x22' = c := fun heq => Text.begins_cons.mp hu heq.symm
                simp [commentFence, QuoteMark.char, List.isPrefixOf, hc]
        | cons c body =>
            have hc : ¬ '\x22' = c := fun heq => by simpa using h.1 heq.symm
            simp [commentFence, QuoteMark.char, List.isPrefixOf, hc]
  exact blockComment_eq_none.mpr hfence

/-- A quoted text is scanned before anything but a double quote. -/
theorem IsQuoted.firstOf {marks : List QuoteMark} (others : List Recogniser) {x u : Text}
    (h : IsQuoted marks x) (hu : u.Begins (· ≠ '\x22')) :
    Recogniser.firstOf (Mode.shared marks ++ others) (x ++ u) = .ok (some ⟨.quoted, x.length⟩) := by
  obtain ⟨mark, hmark, body, rfl, henclosed⟩ := h
  have hterminator : terminatorLength (mark.char :: body ++ [mark.char] ++ u) = 0 := by
    cases mark <;> rfl
  have hcomment : commentLength (mark.char :: body ++ [mark.char] ++ u) = 0 := by
    cases mark <;> rfl
  refine firstOf_cons_eq_some.mpr (.inr ⟨ofLength_eq_none.mpr hterminator, ?_⟩)
  refine firstOf_cons_eq_some.mpr (.inr ⟨ofLength_eq_none.mpr hcomment, ?_⟩)
  refine firstOf_cons_eq_some.mpr (.inr ⟨blockComment_quoted henclosed hu, ?_⟩)
  refine firstOf_cons_eq_some.mpr (.inl (quotedText_eq_some.mpr ?_))
  refine ⟨mark, hmark, body ++ [mark.char] ++ u, body.length, rfl, ?_, ?_⟩
  · refine findUnescaped?_eq_some.mpr ⟨body, u, ?_, rfl, henclosed⟩
    simp
  · simp [Nat.add_comm 1]

/-- Quoting the value of a quoted text with its first character gives the text again. -/
theorem IsQuoted.quote_unquote? {marks : List QuoteMark} {x : Text} (h : IsQuoted marks x) :
    ∃ mark ∈ marks, x.head?.bind QuoteMark.ofChar? = some mark ∧
      ((unquote? x).getD []).quote mark.text = x := by
  obtain ⟨mark, hmark, body, rfl, henclosed⟩ := h
  refine ⟨mark, hmark, ?_, Text.quote_unquote? ?_ henclosed⟩
  · cases mark <;> rfl
  · cases mark <;> decide

/-! ## Connections -/

/-- The text is one connection. -/
structure IsConnection (x : Text) : Prop where
  some : x ≠ []
  length : connectionLength x = x.length

/-- Dashes at the front of a longer text, where the text ends with them or with an arrowhead. -/
theorem run_dash_of_append {s rest : Text} {n : Nat} (h : run (· == '-') (s ++ rest) = n)
    (hs : n ≤ s.length) :
    run (· == '-') s = n ∧ ∀ k, k < s.length → ((s ++ rest).drop k).head? = (s.drop k).head? := by
  refine ⟨?_, fun k hk => ?_⟩
  · rw [run_of_append, h]
    omega
  · rw [List.head?_drop, List.head?_drop, List.getElem?_append_left hk]

/-- A connection that was found is one by itself. -/
theorem connectionLength_of_append {x rest : Text} (hx : x ≠ [])
    (h : connectionLength (x ++ rest) = x.length) : connectionLength x = x.length := by
  obtain ⟨c, s, rfl⟩ := List.exists_cons_of_ne_nil hx
  have hpos : 0 < connectionLength (c :: s ++ rest) := by
    rw [h]
    exact Nat.succ_pos _
  by_cases harrow : c = '<'
  · subst harrow
    simp only [List.cons_append, connectionLength, List.length_cons] at h ⊢
    generalize hn : run (· == '-') (s ++ rest) = n at h
    by_cases hzero : n = 0
    · simp [hzero] at h
    rw [if_neg hzero] at h
    obtain ⟨hrun, hhead⟩ := run_dash_of_append hn (by split at h <;> omega)
    rw [hrun, if_neg hzero]
    by_cases hhere : n < s.length
    · rwa [hhead n hhere] at h
    · rw [List.drop_eq_nil_of_le (Nat.le_of_not_lt hhere)]
      simp only [List.head?_nil, reduceCtorEq, if_false]
      split at h <;> omega
  · by_cases hdash : c = '-'
    · subst hdash
      simp only [List.cons_append, connectionLength, List.length_cons, List.drop_succ_cons] at h ⊢
      generalize hn : run (· == '-') (s ++ rest) = n at h
      have hle : n ≤ s.length := by
        split at h
        · omega
        · split at h <;> omega
      obtain ⟨hrun, hhead⟩ := run_dash_of_append hn hle
      rw [hrun]
      by_cases hhere : n < s.length
      · rwa [hhead n hhere] at h
      · rw [List.drop_eq_nil_of_le (Nat.le_of_not_lt hhere)]
        simp only [List.head?_nil, reduceCtorEq, if_false]
        split at h
        · omega
        · exact h
    · obtain ⟨t, ht⟩ := connectionLength_pos_iff.mp hpos
      simp [harrow, hdash] at ht

/-- A connection of a declaration is one by its characters. -/
theorem IsConnection.of_spells {x : Text} (h : Mode.declaration.Spells .connection x) :
    IsConnection x := by
  have hx := h.ne_nil (by decide)
  obtain ⟨rest, hfirst⟩ := h.firstOf (by decide)
  rw [Mode.recognisers, Mode.firstOf_shared (by simp)] at hfirst
  obtain ⟨_, hfirst⟩ := hfirst
  rw [firstOf_eq_some_iff] at hfirst
  · exact ⟨hx, connectionLength_of_append hx hfirst.1⟩
  · simp only [List.forall_mem_cons, List.not_mem_nil, false_implies, implies_true, and_true]
    exact ⟨⟨.punct, by simp, ofKind_ofLength⟩, ⟨.ident, by simp, ofKind_ofLength⟩⟩

/-- A connection is found, whatever follows. -/
theorem IsConnection.pos {x : Text} (h : IsConnection x) (u : Text) : 0 < connectionLength (x ++ u) := by
  have hpos : 0 < connectionLength x := by
    rw [h.length]
    exact List.length_pos_iff.mpr h.some
  obtain ⟨rest, hrest⟩ := connectionLength_pos_iff.mp hpos
  refine connectionLength_pos_iff.mpr ⟨rest ++ u, ?_⟩
  rcases hrest with rfl | rfl | rfl <;> simp

/-- A connection is scanned before a space. -/
theorem IsConnection.scan {x u : Text} (h : IsConnection x) (hu : u.Begins fun c => c ≠ '-' ∧ c ≠ '>') :
    Mode.declaration.scan (x ++ u) = .ok ⟨.connection, x.length⟩ := by
  have hlength := connectionLength_append hu h.some
  rw [h.length] at hlength
  have hne : x.length ≠ 0 := fun hzero => h.some (List.length_eq_zero_iff.mp hzero)
  obtain ⟨rest, hrest⟩ := connectionLength_pos_iff.mp (h.pos u)
  refine (Mode.scan_eq_ok (by simp [h.some])).mpr ?_
  have hshared : ∀ recogniser ∈ Mode.shared [.double, .single], recogniser (x ++ u) = .ok none := by
    rcases hrest with hrest | hrest | hrest <;>
      rw [hrest] <;> exact Mode.shared_eq_none (by decide) _ _
  rw [Mode.recognisers, firstOf_append, firstOf_eq_none hshared]
  refine firstOf_cons_eq_some.mpr (.inl (ofLength_eq_some.mpr ?_))
  rw [hlength]
  exact ⟨rfl, hne⟩

/-! ## Imports -/

/-- The text is one import: a mark and a path without blanks. -/
def IsImport (x : Text) : Prop :=
  ∃ mark path, (mark = "...@".toList ∨ mark = ['@']) ∧ path ≠ [] ∧
    path.all (!isBlank ·) = true ∧ x = mark ++ path

/-- An import that was found is one by itself. -/
theorem IsImport.of_length {x rest : Text} (hx : x ≠ [])
    (h : importLength (x ++ rest) = x.length) : IsImport x := by
  have hpath : ∀ mark path : Text, (mark = "...@".toList ∨ mark = ['@']) →
      x ++ rest = mark ++ path → (if run (!isBlank ·) path = 0 then 0
        else mark.length + run (!isBlank ·) path) = x.length → IsImport x := by
    intro mark path hmark hsplit hlength
    split at hlength
    · exact absurd (List.length_eq_zero_iff.mp hlength.symm) hx
    · next hne =>
        have htake := congrArg (List.take x.length) hsplit
        rw [List.take_left, ← hlength, List.take_length_add_append] at htake
        refine ⟨mark, path.take (run (!isBlank ·) path), hmark, ?_, ?_, htake⟩
        · intro hnil
          rcases List.take_eq_nil_iff.mp hnil with hzero | rfl
          · exact hne hzero
          · exact hne rfl
        · refine run_eq_length_iff.mp ?_
          rw [run_take, List.length_take, Nat.min_eq_left (run_le_length _ _), Nat.min_self]
  unfold importLength at h
  split at h
  · next t ht => exact hpath _ t (.inl rfl) ht h
  · next t ht => exact hpath _ t (.inr rfl) ht h
  · exact absurd (List.length_eq_zero_iff.mp h.symm) hx

/-- An import of any mode is one by its characters. -/
theorem IsImport.of_spells {mode : Mode} {x : Text} (h : mode.Spells .importRef x) : IsImport x := by
  have hx := h.ne_nil (by decide)
  obtain ⟨rest, hfirst⟩ := h.firstOf (by decide)
  have hshared : ∀ {marks : List QuoteMark} {others : List Recogniser},
      (∀ recogniser ∈ others, ∃ kind ≠ TokenKind.importRef, OfKind kind recogniser) →
      firstOf (Mode.shared marks ++ others) (x ++ rest) = .ok (some ⟨.importRef, x.length⟩) →
      IsImport x := by
    intro marks others hothers h
    rw [Mode.shared, List.cons_append, firstOf_skip ofKind_ofLength (by simp), List.cons_append,
      lineComment, firstOf_skip ofKind_ofLength (by simp), List.cons_append,
      firstOf_skip ofKind_blockComment (by simp), List.cons_append,
      firstOf_skip ofKind_quotedText (by simp), List.cons_append, List.nil_append,
      firstOf_eq_some_iff hothers] at h
    exact .of_length hx h.2.2.2.2.1
  have hlist : ∀ {recognisers : List Recogniser},
      (∀ recogniser ∈ recognisers, ∃ kind, kind ≠ TokenKind.importRef ∧ OfKind kind recogniser) →
      firstOf recognisers (x ++ rest) = .ok (some ⟨.importRef, x.length⟩) → False :=
    fun hkinds h => @kind_of_firstOf (· ≠ .importRef) _ _ _ hkinds h rfl
  cases mode with
  | declaration =>
      refine hshared ?_ hfirst
      simp only [List.forall_mem_cons, List.not_mem_nil, false_implies, implies_true, and_true]
      exact ⟨⟨.connection, by simp, ofKind_ofLength⟩, ⟨.punct, by simp, ofKind_ofLength⟩,
        ⟨.ident, by simp, ofKind_ofLength⟩⟩
  | label =>
      refine hshared ?_ hfirst
      simp only [List.forall_mem_cons, List.not_mem_nil, false_implies, implies_true, and_true]
      exact ⟨⟨.punct, by simp, ofKind_ofLength⟩, ⟨.codeBlock, by simp, ofKind_codeBlock⟩,
        ⟨.number, by simp, ofKind_ofLength⟩, ⟨.boolean, by simp, ofKind_ofLength⟩,
        ⟨.text, by simp, ofKind_ofLength⟩⟩
  | arguments | constraints =>
      refine (hlist ?_ hfirst).elim
      simp only [Mode.recognisers, List.forall_mem_cons, List.not_mem_nil, false_implies,
        implies_true, and_true]
      exact ⟨⟨.comment, by simp, ofKind_ofLength⟩, ⟨.punct, by simp, ofKind_ofLength⟩,
        ⟨.ident, by simp, ofKind_ofLength⟩⟩

/-- An import is scanned at the end of a text. -/
theorem IsImport.scan {mode : Mode} (hmode : mode.IsLine) {x : Text} (h : IsImport x) :
    mode.scan x = .ok ⟨.importRef, x.length⟩ := by
  obtain ⟨mark, path, hmark, hpath, hall, rfl⟩ := h
  have hrun := run_eq_length_iff.mpr hall
  have hne : run (!isBlank ·) path ≠ 0 := by
    rw [hrun]
    exact fun hzero => hpath (List.length_eq_zero_iff.mp hzero)
  have hlength : importLength (mark ++ path) = (mark ++ path).length := by
    rcases hmark with rfl | rfl
    · change (if run (!isBlank ·) path = 0 then 0 else 4 + run (!isBlank ·) path) = _
      rw [if_neg hne, hrun, List.length_append]
      rfl
    · change (if run (!isBlank ·) path = 0 then 0 else 1 + run (!isBlank ·) path) = _
      rw [if_neg hne, hrun, List.length_append]
      rfl
  have hfirst : ∀ marks others, firstOf (Mode.shared marks ++ others) (mark ++ path) =
      .ok (some ⟨.importRef, (mark ++ path).length⟩) := by
    intro marks others
    have hquoted : quotedText marks (mark ++ path) = .ok none := by
      rcases hmark with rfl | rfl <;>
        refine quotedText_eq_none.mpr (List.any_eq_false.mpr fun mark _ => ?_) <;>
        cases mark <;> decide
    have hcomments : ∀ recogniser ∈ Mode.commentRecognisers, recogniser (mark ++ path) = .ok none := by
      simp only [Mode.commentRecognisers, List.forall_mem_cons, List.not_mem_nil, false_implies,
        implies_true, and_true]
      rcases hmark with rfl | rfl <;> exact ⟨rfl, rfl, rfl⟩
    have hlist : Mode.shared marks ++ others = Mode.commentRecognisers ++
        (quotedText marks :: ofLength .importRef importLength :: others) := rfl
    rw [hlist, firstOf_append, firstOf_eq_none hcomments]
    refine firstOf_cons_eq_some.mpr (.inr ⟨hquoted, ?_⟩)
    refine firstOf_cons_eq_some.mpr (.inl (ofLength_eq_some.mpr ?_))
    rw [hlength]
    exact ⟨rfl, by simp [hpath]⟩
  refine (Mode.scan_eq_ok (by simp [hpath])).mpr ?_
  rcases hmode with rfl | rfl <;> exact hfirst _ _

end DiagramText
