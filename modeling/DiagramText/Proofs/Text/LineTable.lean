import Mathlib.Data.Finset.Card
import Mathlib.Data.List.GetD
import Mathlib.Data.Nat.Count
import Mathlib.Data.Prod.Lex
import Mathlib.Order.Monotone.Basic
import DiagramText.Proofs.Text.Slice
import DiagramText.Text.Character

/-!
# Lines and columns

A position counts lines and columns on its way through the source.  What it
counts is said here of the source alone: `Text.BreakEndsAt` tells at which
offsets a line break ends, the line of an offset is one more than there are such
offsets up to it (`Position.line_ofOffset`), and the column counts from the last
of them (`Position.column_ofOffset`).  One step from an offset to the next leads
either to the next line or to the next column (`Position.ofOffset_succ`), and
all three facts follow from it, also beyond the end of the source.

The same numbers stand in a table of the offsets at which lines start, made once
for a source and searched by halving (`Span.ofTable_lineStarts`).
-/

namespace DiagramText

namespace Text

/-- A line break ends at the offset: behind a line feed, or behind a carriage return that no line
feed follows. -/
def BreakEndsAt (source : Text) : (offset : Nat) → Prop
  | 0 => False
  | offset + 1 => source[offset]? = some '\n' ∨
      (source[offset]? = some '\r' ∧ source[offset + 1]? ≠ some '\n')

instance (source : Text) : DecidablePred source.BreakEndsAt
  | 0 => inferInstanceAs (Decidable False)
  | offset + 1 => inferInstanceAs (Decidable (source[offset]? = some '\n' ∨
      (source[offset]? = some '\r' ∧ source[offset + 1]? ≠ some '\n')))

theorem not_breakEndsAt_zero (source : Text) : ¬source.BreakEndsAt 0 := id

end Text

namespace Position

/-! ## Counting -/

/-- The next offset is at the front of the next line if a break ends there, and else in the next
column. -/
theorem ofOffset_succ (source : Text) (offset : Nat) :
    ofOffset source (offset + 1) =
      if source.BreakEndsAt (offset + 1) then ⟨offset + 1, (ofOffset source offset).line + 1, 1⟩
      else ⟨offset + 1, (ofOffset source offset).line, (ofOffset source offset).column + 1⟩ := by
  have hstep : ofOffset source (offset + 1) =
      (ofOffset source offset).advance 1 (source.drop offset) :=
    (advance_advance start offset 1 source).symm
  have hoffset := offset_ofOffset source offset
  rw [hstep]
  cases hrest : source.drop offset with
  | nil =>
      have hend : source[offset]? = none := by rw [← List.head?_drop, hrest, List.head?_nil]
      simp [advance, Text.BreakEndsAt, hend]
  | cons c rest =>
      obtain ⟨hc, hrest'⟩ := Text.of_drop_eq_cons hrest
      have hnext : source[offset + 1]? = rest.head? := by rw [← List.head?_drop, hrest']
      simp only [advance, step, Text.BreakEndsAt, hc, hnext, hoffset, Option.some.injEq]

/-- The line is one more than there are offsets up to this one at which a break ends. -/
theorem line_ofOffset (source : Text) (offset : Nat) :
    (ofOffset source offset).line = 1 + Nat.count source.BreakEndsAt (offset + 1) := by
  induction offset with
  | zero => simp [ofOffset, advance, start, Nat.count_succ, Text.BreakEndsAt]
  | succ offset ih =>
      rw [ofOffset_succ, Nat.count_succ]
      split <;> simp only [ih] <;> omega

/-- The column counts from the last offset up to this one at which a break ends. -/
theorem column_ofOffset (source : Text) (offset : Nat) :
    (ofOffset source offset).column = 1 + (offset - Nat.findGreatest source.BreakEndsAt offset) := by
  induction offset with
  | zero => rfl
  | succ offset ih =>
      have hle : Nat.findGreatest source.BreakEndsAt offset ≤ offset := Nat.findGreatest_le offset
      rw [ofOffset_succ, Nat.findGreatest_succ]
      by_cases hbreak : source.BreakEndsAt (offset + 1)
      · rw [if_pos hbreak, if_pos hbreak, Nat.sub_self]
      · rw [if_neg hbreak, if_neg hbreak, ih]
        show 1 + (offset - _) + 1 = _
        omega

/-- Line and column of an offset, to be compared in this order. -/
def rank (source : Text) (offset : Nat) : Nat ×ₗ Nat :=
  toLex ((ofOffset source offset).line, (ofOffset source offset).column)

/-- Later offsets have later lines, or later columns in the same line. -/
theorem rank_strictMono (source : Text) : StrictMono (rank source) := by
  apply strictMono_nat_of_lt_succ
  intro offset
  rw [rank, rank, Prod.Lex.toLex_lt_toLex, ofOffset_succ]
  split
  · exact .inl (Nat.lt_succ_self _)
  · exact .inr ⟨rfl, Nat.lt_succ_self _⟩

end Position

/-! ## The table -/

namespace Text

/-- The ends of the line breaks from left to right, when the text stands at an offset. -/
def breakEnds (offset : Nat) : Text → List Nat
  | [] => []
  | '\r' :: '\n' :: rest => (offset + 2) :: breakEnds (offset + 2) rest
  | c :: rest =>
    if isBreak c then (offset + 1) :: breakEnds (offset + 1) rest else breakEnds (offset + 1) rest

/-- The offsets at which lines start: the front, and the end of every line break. -/
def lineStarts (source : Text) : List Nat :=
  0 :: breakEnds 0 source

/-- A break ends in a text behind its first character, or in the rest. -/
theorem exists_breakEndsAt_cons {c : Char} {s : Text} {offset stop : Nat} :
    (∃ count, stop = offset + count ∧ BreakEndsAt (c :: s) count) ↔
      stop = offset + 1 ∧ (c = '\n' ∨ (c = '\r' ∧ s.head? ≠ some '\n')) ∨
        ∃ count, stop = offset + 1 + count ∧ s.BreakEndsAt count := by
  have hcons : ∀ count, BreakEndsAt (c :: s) (count + 1) ↔
      count = 0 ∧ (c = '\n' ∨ (c = '\r' ∧ s.head? ≠ some '\n')) ∨ s.BreakEndsAt count := by
    intro count
    cases count <;> simp [BreakEndsAt, List.head?_eq_getElem?]
  constructor
  · intro h
    obtain ⟨count, hstop, hbreak⟩ := h
    cases count with
    | zero => exact absurd hbreak (not_breakEndsAt_zero _)
    | succ count => grind
  · intro h
    rcases h with ⟨hstop, hbreak⟩ | ⟨count, hstop, hbreak⟩
    · exact ⟨1, hstop, (hcons 0).mpr (.inl ⟨rfl, hbreak⟩)⟩
    · exact ⟨count + 1, by omega, (hcons count).mpr (.inr hbreak)⟩

/-- The table has an entry for each place where a break ends. -/
theorem mem_breakEnds {offset stop : Nat} {s : Text} :
    stop ∈ breakEnds offset s ↔ ∃ count, stop = offset + count ∧ s.BreakEndsAt count := by
  fun_induction breakEnds offset s with
  | case1 offset =>
      simp only [List.not_mem_nil, false_iff]
      intro h
      obtain ⟨count, _, hbreak⟩ := h
      cases count <;> simp [BreakEndsAt] at hbreak
  | case2 offset rest ih =>
      rw [List.mem_cons, ih, exists_breakEndsAt_cons, exists_breakEndsAt_cons]
      simp
  | case3 offset c rest hpair hc ih =>
      rw [List.mem_cons, ih, exists_breakEndsAt_cons]
      have hnext : c = '\r' → rest.head? ≠ some '\n' := by
        intro hreturn hhead
        obtain ⟨later, hlater⟩ := List.head?_eq_some_iff.mp hhead
        exact hpair later hreturn hlater
      have hbreak : c = '\n' ∨ (c = '\r' ∧ rest.head? ≠ some '\n') := by
        grind [isBreak]
      simp only [hbreak, and_true]
  | case4 offset c rest hpair hc ih =>
      rw [ih, exists_breakEndsAt_cons]
      have hplain : ¬(c = '\n' ∨ (c = '\r' ∧ rest.head? ≠ some '\n')) := by
        grind [isBreak]
      simp only [hplain, and_false, false_or]

/-- The breaks of a text end behind its front, one after another. -/
theorem breakEnds_sorted (offset : Nat) (s : Text) :
    (∀ stop ∈ breakEnds offset s, offset < stop) ∧ (breakEnds offset s).Pairwise (· < ·) := by
  fun_induction breakEnds offset s with
  | case1 => simp
  | case2 offset rest ih => grind [List.pairwise_cons]
  | case3 offset c rest hpair hc ih => grind [List.pairwise_cons]
  | case4 offset c rest hpair hc ih => grind

/-- The starts of lines are sorted. -/
theorem lineStarts_sorted (source : Text) : source.lineStarts.Pairwise (· < ·) :=
  List.pairwise_cons.mpr (breakEnds_sorted 0 source)

end Text

/-- How many entries of a sorted table do not exceed the value, when it is known to be from `low` to
`high`: the entry in the middle tells in which half to go on. -/
def bisectRight (table : List Nat) (value low high : Nat) : Nat :=
  if low < high then
    let middle := (low + high) / 2
    if value < table.getD middle 0 then bisectRight table value low middle
    else bisectRight table value (middle + 1) high
  else low
termination_by high - low

/-- In a sorted table the entries that do not exceed the value come first. -/
theorem lt_countP_iff {table : List Nat} (value : Nat) {index : Nat} (hsorted : table.Pairwise (· < ·))
    (hindex : index < table.length) :
    index < table.countP (· ≤ value) ↔ table.getD index 0 ≤ value := by
  induction table generalizing index with
  | nil => cases hindex
  | cons entry table ih =>
      obtain ⟨hfirst, hrest⟩ := List.pairwise_cons.mp hsorted
      by_cases hentry : entry ≤ value
      · cases index with
        | zero => simp [hentry]
        | succ index =>
            rw [List.countP_cons_of_pos (by simpa using hentry), List.getD_cons_succ,
              ← ih hrest (by simpa using hindex)]
            omega
      · have hnone : (entry :: table).countP (· ≤ value) = 0 := by
          rw [List.countP_eq_zero]
          grind
        have hmem : (entry :: table).getD index 0 ∈ entry :: table := by
          rw [List.getD_eq_getElem _ _ hindex]
          exact List.getElem_mem hindex
        rw [hnone]
        grind

/-- A search by halves counts the entries that are not above the value, wherever it is begun. -/
theorem bisectRight_eq {table : List Nat} (value : Nat) {low high : Nat} (hsorted : table.Pairwise (· < ·))
    (hlow : low ≤ table.countP (· ≤ value)) (hhigh : table.countP (· ≤ value) ≤ high)
    (hlength : high ≤ table.length) :
    bisectRight table value low high = table.countP (· ≤ value) := by
  fun_induction bisectRight table value low high with
  | case1 low high hlt middle hvalue ih =>
      have hinside : middle < table.length := by omega
      have hmiddle := lt_countP_iff value hsorted hinside
      exact ih hlow (by omega) (by omega)
  | case2 low high hlt middle hvalue ih =>
      have hinside : middle < table.length := by omega
      have hmiddle := lt_countP_iff value hsorted hinside
      exact ih (by omega) hhigh hlength
  | case3 low high hlt => omega

namespace Text

/-- A line starts at the front and behind each break. -/
theorem mem_lineStarts {source : Text} {offset : Nat} :
    offset ∈ source.lineStarts ↔ offset = 0 ∨ source.BreakEndsAt offset := by
  simp [lineStarts, mem_breakEnds]

/-- Up to an offset as many lines start as breaks end, and the first. -/
theorem countP_lineStarts (source : Text) (offset : Nat) :
    source.lineStarts.countP (· ≤ offset) = 1 + Nat.count source.BreakEndsAt (offset + 1) := by
  have hnodup : ((breakEnds 0 source).filter (· ≤ offset)).Nodup :=
    ((breakEnds_sorted 0 source).2.imp Nat.ne_of_lt).filter _
  have hcount : Nat.count source.BreakEndsAt (offset + 1) =
      (breakEnds 0 source).countP (· ≤ offset) := by
    rw [Nat.count_eq_card_filter_range, List.countP_eq_length_filter,
      ← List.toFinset_card_of_nodup hnodup]
    congr 1
    ext stop
    simp only [Finset.mem_filter, Finset.mem_range, List.mem_toFinset, List.mem_filter, mem_breakEnds,
      decide_eq_true_eq, Nat.zero_add, exists_eq_left']
    grind
  rw [hcount, lineStarts, List.countP_cons_of_pos (by simp), Nat.add_comm]

/-- The last line that starts up to an offset does so where the last break ends. -/
theorem lineStarts_getD (source : Text) (offset : Nat) :
    source.lineStarts.getD (source.lineStarts.countP (· ≤ offset) - 1) 0 =
      Nat.findGreatest source.BreakEndsAt offset := by
  have hpos : 0 < source.lineStarts.countP (· ≤ offset) := by
    rw [countP_lineStarts]
    omega
  have hcount : source.lineStarts.countP (· ≤ offset) ≤ source.lineStarts.length :=
    List.countP_le_length
  obtain ⟨last, hlast⟩ := Nat.exists_eq_succ_of_ne_zero (Nat.ne_of_gt hpos)
  have hindex : last < source.lineStarts.length := by omega
  have hle := (lt_countP_iff offset source.lineStarts_sorted hindex).mp (by omega)
  rw [hlast, Nat.succ_sub_one, List.getD_eq_getElem _ _ hindex]
  rw [List.getD_eq_getElem _ _ hindex] at hle
  apply Eq.symm
  rw [Nat.findGreatest_eq_iff]
  refine ⟨hle, ?_, ?_⟩
  · intro hne
    exact (mem_lineStarts.mp (List.getElem_mem hindex)).resolve_left hne
  · intro stop hlater hstop hbreak
    -- The break's end is a line start, too, so it would be one of those counted.
    obtain ⟨index, hlt, rfl⟩ := List.mem_iff_getElem.mp (mem_lineStarts.mpr (.inr hbreak))
    have hbefore : index < source.lineStarts.countP (· ≤ offset) := by
      rw [lt_countP_iff offset source.lineStarts_sorted hlt, List.getD_eq_getElem _ _ hlt]
      exact hstop
    have hsorted := List.pairwise_iff_getElem.mp source.lineStarts_sorted index last hlt hindex
    by_cases hsame : index = last
    · subst hsame
      omega
    · have := hsorted (by omega)
      omega

end Text

namespace Span

/-- The span between two offsets, its line and column from a table of the offsets at which lines
start. -/
def ofTable (table : List Nat) (start : Nat) (stop : Int) : Span :=
  let line := bisectRight table start 0 table.length
  ⟨start, stop, line, start - table.getD (line - 1) 0 + 1⟩

/-- The span from the table is the one from the source. -/
theorem ofTable_lineStarts (source : Text) (start : Nat) (stop : Int) :
    ofTable source.lineStarts start stop = ofOffsets source start stop := by
  have hline := Text.countP_lineStarts source start
  have hsearch := bisectRight_eq start source.lineStarts_sorted (Nat.zero_le _)
    List.countP_le_length (Nat.le_refl _)
  have hcolumn := Text.lineStarts_getD source start
  rw [ofTable, hsearch, hcolumn, hline, ofOffsets, upTo, Position.line_ofOffset,
    Position.column_ofOffset, Position.offset_ofOffset]
  have hle : Nat.findGreatest source.BreakEndsAt start ≤ start := Nat.findGreatest_le start
  simp only [mk.injEq, true_and]
  omega

/-- The line of a span is one more than line breaks end up to its start, its column counts from the end
of the last of them, and both are those of the table.  Spans that start later have a later line, or a
later column in the same line. -/
theorem numbering (source : Text) (start : Nat) (stop : Int) :
    (ofOffsets source start stop).line = 1 + Nat.count source.BreakEndsAt (start + 1) ∧
      (ofOffsets source start stop).column =
        1 + ((start : Int) - Nat.findGreatest source.BreakEndsAt start) ∧
      ofTable source.lineStarts start stop = ofOffsets source start stop ∧
      ∀ (later : Nat) (stop' : Int), start < later →
        toLex ((ofOffsets source start stop).line, (ofOffsets source start stop).column) <
          toLex ((ofOffsets source later stop').line, (ofOffsets source later stop').column) := by
  refine ⟨?_, ?_, ofTable_lineStarts source start stop, ?_⟩
  · have := Position.line_ofOffset source start
    simp only [ofOffsets, upTo]
    omega
  · have := Position.column_ofOffset source start
    have hle : Nat.findGreatest source.BreakEndsAt start ≤ start := Nat.findGreatest_le start
    simp only [ofOffsets, upTo]
    omega
  · intro later stop' hlater
    have hrank := Position.rank_strictMono source hlater
    rw [Position.rank, Position.rank, Prod.Lex.toLex_lt_toLex] at hrank
    rw [Prod.Lex.toLex_lt_toLex]
    simp only [ofOffsets, upTo]
    omega

/-- A carriage return and a line feed are one break, also for the offset between them, and columns go
on behind the end of the source. -/
theorem numbering_crlf :
    ofOffsets ['a', '\r', '\n', '\n'] 2 3 = ⟨2, 3, 1, 3⟩ ∧
      ofOffsets ['a', '\r', '\n', '\n'] 9 9 = ⟨9, 9, 3, 6⟩ ∧
      toLex ((1 : Int), (3 : Int)) < toLex ((3 : Int), (6 : Int)) := by
  have h := numbering ['a', '\r', '\n', '\n'] 2 3
  exact ⟨by decide, by decide, h.2.2.2 9 9 (by decide)⟩

end Span

end DiagramText
