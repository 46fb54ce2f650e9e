import DiagramText.Position

/-!
# Spans on a source

A span lies within a source when it goes from one offset to a later one and has
the line and column of the first (`Span.Within`); its text is the part of the
source between the two.  Spans that follow one another between two offsets are
a row (`Span.Row`): they are disjoint and in order, and rows that meet make one
row.
-/

namespace DiagramText

/-- Offsets that are not negative count from the front. -/
theorem Text.slice_natCast (s : Text) (start stop : Nat) :
    s.slice start stop = (s.take stop).drop start := by
  have hplain : ∀ offset : Nat, ¬ (offset : Int) < 0 := by omega
  simp only [slice, if_neg (hplain _), Int.toNat_natCast]

/-- The text ahead tells the character at an offset and the text behind it. -/
theorem Text.of_drop_eq_cons {s rest : Text} {offset : Nat} {c : Char}
    (h : s.drop offset = c :: rest) : s[offset]? = some c ∧ s.drop (offset + 1) = rest := by
  constructor
  · rw [← List.head?_drop, h, List.head?_cons]
  · rw [← List.drop_drop, h, List.drop_succ_cons, List.drop_zero]

namespace Span

/-- The part of the source in the span. -/
def text (source : Text) (span : Span) : Text :=
  source.slice span.start span.stop

/-- The span goes from an offset of the source to one that is not before it, and has the line and
column of its start. -/
def Within (source : Text) (span : Span) : Prop :=
  ∃ start stop : Nat, start ≤ stop ∧ stop ≤ source.length ∧ span = .ofOffsets source start stop

/-- The first span lies in the other. -/
def Inside (span outer : Span) : Prop :=
  outer.start ≤ span.start ∧ span.stop ≤ outer.stop

/-- The spans follow one another between the two offsets. -/
inductive Row : (start : Int) → List Span → (stop : Int) → Prop
  | nil {start stop : Int} (le : start ≤ stop) : Row start [] stop
  | cons {start stop : Int} {span : Span} {others : List Span} (before : start ≤ span.start)
      (le : span.start ≤ span.stop) (later : Row span.stop others stop) :
      Row start (span :: others) stop

variable {source : Text} {span : Span}

@[simp] theorem start_ofOffsets (source : Text) (start : Nat) (stop : Int) :
    (ofOffsets source start stop).start = start := by
  simp [ofOffsets, upTo]

@[simp] theorem stop_ofOffsets (source : Text) (start : Nat) (stop : Int) :
    (ofOffsets source start stop).stop = stop := rfl

/-- A span that is cut from the source holds the text it was cut for. -/
theorem text_ofOffsets {start : Nat} {x : Text} (h : x <+: source.drop start) :
    (ofOffsets source start ((start : Int) + x.length)).text source = x := by
  have hstop : (start : Int) + x.length = (start + x.length : Nat) := by omega
  rw [text, start_ofOffsets, stop_ofOffsets, hstop, Text.slice_natCast, List.drop_take,
    Nat.add_sub_cancel_left]
  exact (List.prefix_iff_eq_take.mp h).symm

namespace Within

/-- A span within the source does not end before it starts. -/
theorem le (h : span.Within source) : span.start ≤ span.stop := by
  obtain ⟨start, stop, hle, _, rfl⟩ := h
  simpa using hle

/-- From the start of the one span to the end of the other the span lies within the source, too. -/
theorem cover {other : Span} (h : span.Within source) (h' : other.Within source) :
    (span.cover other).Within source := by
  obtain ⟨start, stop, hle, hstop, rfl⟩ := h
  obtain ⟨start', stop', _, hstop', rfl⟩ := h'
  refine ⟨start, max stop stop', by omega, by omega, ?_⟩
  simp only [Span.cover, ofOffsets, upTo, mk.injEq, true_and, and_true]
  omega

end Within

theorem start_cover (a b : Span) : (a.cover b).start = a.start := rfl

theorem cover_self (a : Span) : a.cover a = a := by
  simp [cover]

/-- A cover ends where the later of its spans does. -/
theorem stop_cover_of_le {a b : Span} (h : a.stop ≤ b.stop) : (a.cover b).stop = b.stop :=
  Int.max_eq_right h

namespace Row

variable {start mid stop : Int} {spans others : List Span}

/-- A row does not end before it starts. -/
theorem le (h : Row start spans stop) : start ≤ stop := by
  induction h with
  | nil le => exact le
  | cons before le _ ih => omega

/-- One span is a row. -/
theorem single (before : start ≤ span.start) (le : span.start ≤ span.stop)
    (after : span.stop ≤ stop) : Row start [span] stop :=
  .cons before le (.nil after)

/-- Rows that meet make one row. -/
theorem append (h : Row start spans mid) (h' : Row mid others stop) :
    Row start (spans ++ others) stop := by
  induction h with
  | nil le =>
      cases h' with
      | nil le' => exact .nil (by omega)
      | cons before le' later => exact .cons (by omega) le' later
  | cons before le _ ih => exact .cons before le (ih h')

/-- A row stands between offsets further apart, too. -/
theorem mono {start' stop' : Int} (h : Row start spans stop) (hstart : start' ≤ start)
    (hstop : stop ≤ stop') : Row start' spans stop' := by
  induction h generalizing start' with
  | nil le => exact .nil (by omega)
  | cons before le _ ih => exact .cons (by omega) le (ih (Int.le_refl _) hstop)

/-- The spans of a row lie between its offsets. -/
theorem mem (h : Row start spans stop) :
    ∀ span ∈ spans, start ≤ span.start ∧ span.start ≤ span.stop ∧ span.stop ≤ stop := by
  induction h with
  | nil _ => simp
  | cons before le later ih =>
      have hlater := later.le
      intro other hother
      rcases List.mem_cons.mp hother with rfl | hother
      · exact ⟨before, le, hlater⟩
      · obtain ⟨hstart, hle, hstop⟩ := ih other hother
        exact ⟨by omega, hle, hstop⟩

/-- The spans of a row are disjoint and in order. -/
theorem pairwise (h : Row start spans stop) : spans.Pairwise fun a b => a.stop ≤ b.start := by
  induction h with
  | nil _ => exact .nil
  | cons _ _ later ih =>
      apply List.Pairwise.cons _ ih
      intro other hother
      exact (later.mem other hother).1

/-- The row before its last span. -/
theorem before_last {last : Span} (h : Row start (spans ++ [last]) stop) :
    Row start spans last.start ∧ last.start ≤ last.stop ∧ last.stop ≤ stop := by
  induction spans generalizing start with
  | nil =>
      cases h with
      | cons before le later => exact ⟨.nil before, le, later.le⟩
  | cons span spans ih =>
      cases h with
      | cons before le later =>
          obtain ⟨hrow, hlast⟩ := ih later
          exact ⟨.cons before le hrow, hlast⟩

/-- A row may begin right where its first span does. -/
theorem from_first {first : Span} (h : Row start (first :: others) stop) :
    Row first.start (first :: others) stop := by
  cases h with
  | cons _ le later => exact .cons (Int.le_refl _) le later

/-- What is left of a row is a row. -/
theorem sublist (h : Row start spans stop) (hsub : others.Sublist spans) : Row start others stop := by
  induction hsub generalizing start with
  | slnil => exact h
  | cons span _ ih =>
      cases h with
      | cons before le later => exact ih (later.mono (by omega) (Int.le_refl _))
  | cons_cons span _ ih =>
      cases h with
      | cons before le later => exact .cons before le (ih later)

/-- A row ends where its last span ends. -/
theorem last (h : Row start spans stop) :
    Row start spans ((spans.getLast?.map (·.stop)).getD start) := by
  induction h with
  | nil _ => exact .nil (Int.le_refl _)
  | @cons start _ span others before le _ ih =>
      apply Row.cons before le
      rw [List.getLast?_cons]
      cases hlast : others.getLast? with
      | none =>
          rw [hlast] at ih
          exact ih
      | some other =>
          rw [hlast] at ih
          exact ih

/-- A row lies in the span from the start of its first to the end of its last. -/
theorem cover {first : Span} (h : Row start (first :: others) stop) :
    Row first.start (first :: others) (first.cover (others.getLast?.getD first)).stop ∧
      start ≤ first.start ∧ (first.cover (others.getLast?.getD first)).stop ≤ stop := by
  have hlast : (first :: others).getLast? = some (others.getLast?.getD first) := List.getLast?_cons
  have hrow := h.last
  obtain ⟨_, _, hstop⟩ := h.mem _ (List.mem_of_getLast? hlast)
  rw [hlast] at hrow
  cases hrow with
  | cons before le later =>
      rw [stop_cover_of_le later.le]
      exact ⟨.cons (Int.le_refl _) le later, before, hstop⟩

end Row

end Span

end DiagramText
