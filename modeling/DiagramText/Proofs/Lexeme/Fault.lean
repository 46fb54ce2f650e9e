import DiagramText.Proofs.Lexeme.Length

/-!
# Where a scan fails

Two kinds of recognisers come to a fault, those of forms that have to be closed;
the others never do (`Recogniser.ofLength_ne_error`).  What a fault points at
stands at the front of the text ahead: the mark that opened the form, or the
character that nothing begins with (`Mode.extent_le_length`).
-/

namespace DiagramText

namespace Recogniser

/-- What its faults point at stands at the front of the text ahead. -/
def Points (recogniser : Recogniser) : Prop :=
  ∀ s fault, recogniser s = .error fault → fault.extent ≤ s.length

/-- A recogniser by length never fails. -/
theorem ofLength_ne_error {kind : TokenKind} {length : Text → Nat} {s : Text} {fault : LexFault} :
    ofLength kind length s ≠ .error fault := by
  simp [ofLength]

theorem points_ofLength (kind : TokenKind) (length : Text → Nat) : Points (ofLength kind length) :=
  fun _ _ h => absurd h ofLength_ne_error

/-- The first recogniser comes to the fault, or it finds nothing and another one comes to it. -/
theorem firstOf_cons_eq_error {recogniser : Recogniser} {others : List Recogniser} {s : Text}
    {fault : LexFault} :
    firstOf (recogniser :: others) s = .error fault ↔
      recogniser s = .error fault ∨ (recogniser s = .ok none ∧ firstOf others s = .error fault) := by
  simp only [firstOf]
  split <;> simp_all

/-- The first of recognisers whose faults point into the text has such faults. -/
theorem Points.firstOf {recognisers : List Recogniser}
    (h : ∀ recogniser ∈ recognisers, Points recogniser) : Points (firstOf recognisers) := by
  induction recognisers with
  | nil => exact fun s fault hs => by cases hs
  | cons recogniser others ih =>
      intro s fault hs
      rcases firstOf_cons_eq_error.mp hs with hfirst | ⟨_, hothers⟩
      · exact h recogniser List.mem_cons_self s fault hfirst
      · exact ih (fun r hr => h r (List.mem_cons_of_mem _ hr)) s fault hothers

end Recogniser

open Recogniser

/-- A block comment that is not closed points at its opening quotes. -/
theorem points_blockComment : Points blockComment := by
  intro s fault h
  unfold blockComment at h
  split at h
  · next hfence =>
      split at h
      · cases h
      · obtain rfl := Except.error.inj h
        exact (List.isPrefixOf_iff_prefix.mp hfence).length_le
  · cases h

/-- A quoted text that is not closed points at its quote. -/
theorem points_quotedText (marks : List QuoteMark) : Points (quotedText marks) := by
  intro s fault h
  unfold quotedText at h
  split at h
  · cases h
  · split at h
    · split at h
      · cases h
      · obtain rfl := Except.error.inj h
        exact Nat.succ_le_succ (Nat.zero_le _)
    · cases h

/-- A code block that is not closed points at its fence. -/
theorem points_codeBlock : Points codeBlock := by
  intro s fault h
  simp only [codeBlock] at h
  split at h
  · cases h
  · next style hstyle =>
      have hopener := (FenceStyle.openingOf?_prefix hstyle).length_le
      split at h
      · obtain rfl := Except.error.inj h
        exact hopener
      · split at h
        · obtain rfl := Except.error.inj h
          exact hopener
        · cases h

namespace Mode

theorem points_shared (marks : List QuoteMark) : ∀ recogniser ∈ shared marks, Points recogniser := by
  simp only [shared, List.forall_mem_cons, List.not_mem_nil, false_implies, implies_true, and_true]
  exact ⟨points_ofLength _ _, points_ofLength _ _, points_blockComment, points_quotedText marks,
    points_ofLength _ _⟩

/-- The faults of all recognisers of a mode point into the text. -/
theorem points_recognisers (mode : Mode) : ∀ recogniser ∈ mode.recognisers, Points recogniser := by
  cases mode with
  | declaration =>
      simp only [recognisers, List.forall_mem_append, List.forall_mem_cons, List.not_mem_nil,
        false_implies, implies_true, and_true]
      exact ⟨points_shared _, points_ofLength _ _, points_ofLength _ _, points_ofLength _ _⟩
  | label =>
      simp only [recognisers, List.forall_mem_append, List.forall_mem_cons, List.not_mem_nil,
        false_implies, implies_true, and_true]
      exact ⟨points_shared _, points_ofLength _ _, points_codeBlock, points_ofLength _ _,
        points_ofLength _ _, points_ofLength _ _⟩
  | arguments =>
      simp only [recognisers, List.forall_mem_cons, List.not_mem_nil, false_implies, implies_true,
        and_true]
      exact ⟨points_ofLength _ _, points_ofLength _ _, points_ofLength _ _⟩
  | constraints =>
      simp only [recognisers, List.forall_mem_cons, List.not_mem_nil, false_implies, implies_true,
        and_true]
      exact ⟨points_ofLength _ _, points_ofLength _ _, points_ofLength _ _⟩

/-- What a fault points at stands at the front of the text ahead. -/
theorem extent_le_length {mode : Mode} {s : Text} {fault : LexFault} (h : mode.scan s = .error fault) :
    fault.extent ≤ s.length := by
  cases s with
  | nil => cases h
  | cons c s =>
      simp only [scan] at h
      split at h
      · cases h
      · obtain rfl := Except.error.inj h
        exact Nat.succ_le_succ (Nat.zero_le _)
      · next found hfound =>
          obtain rfl := Except.error.inj h
          exact Points.firstOf (points_recognisers mode) _ _ hfound

end Mode

end DiagramText
