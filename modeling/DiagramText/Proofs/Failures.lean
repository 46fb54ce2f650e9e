import DiagramText.Proofs.Frames
import DiagramText.Proofs.Grammar.Opened

/-!
# Failures

A source that is not read is malformed, or it holds an integer with more digits
than are read (`Failure.Structured`).  A syntax error points at a place within
the source and bears out there what it says, and the tree of what was completed
comes with it.

Nothing else happens: no repetition stalls, the frames of the scopes lack
nothing, a fence is looked for only after a bar, and the tokens that are taken
apart have the parts that are looked for (`Document.ofText_structured`).
-/

namespace DiagramText

open Grammar Reader

variable {source : Text} {config : Config}

/-- The failure is one of those that a source comes to, and what it says of the source is so. -/
def Failure.Structured (source : Text) : Failure → Prop
  | .malformed error completed =>
    (0 ≤ error.span.start ∧ error.span.start ≤ error.span.stop ∧ error.span.stop ≤ source.length) ∧
      error.Founded source ∧ completed.span = .ofOffsets source 0 source.length
  | .numeralTooLong digits => Numeral.digitLimit < digits ∧ Overlong source digits
  | .stalled => False

namespace Grammar

variable {S T : Session} {token : Token} {fault : Fault}

/-- Each way to fail in a session that stands on the source gives a fault that the source bears out, and
not one for a repetition. -/
theorem founded_of_breaks (hS : Settled S token) (hstanding : S.Standing source)
    (h : Breaks config token S fault T) : fault ≠ .stalled ∧ fault.Founded source := by
  have hplaced := hstanding.laid.logs.placed
  cases h with
  | @unclosed block outer eof blocks =>
      have hopened := hstanding.opened block (blocks ▸ List.mem_cons_self)
      exact ⟨by simp, hopened.isBrace⟩
  | stray => exact ⟨by simp, by decide, .declaration, hS.shows.readFrom hS.sound hplaced⟩
  | close brace blocks failed =>
      have hmoves := hS.shows.moves_consumed hS.sound hplaced
      exact ⟨((finishBlock_spec hmoves.sound).error failed).1,
        (finishBlock_founds _ hmoves.sound hmoves.placed).error failed⟩
  | statement failed =>
      exact ⟨((statement_spec hS.sound).error failed).1,
        (statement_founds _ hS.sound hplaced).error failed⟩
  | @tooDeep target label brace r read deep =>
      have hread : Statement.ReadFrom source (.opening target label brace) :=
        ⟨S.reader, r, ⟨hS.sound, hplaced⟩, read⟩
      exact ⟨by simp, brace, hread.brace.1, hread.brace.2, rfl⟩

/-- Where the turns fail, the source bears out the fault. -/
theorem turns_founded (source : Text) (config : Config) :
    Ends (turns config) ⟨.ofText source, .empty⟩ (fun _ _ => True)
      fun fault _ => fault ≠ .stalled ∧ fault.Founded source := by
  apply turns_breaks (P := Session.Standing source)
  · intro S token r _ hpeek hS
    exact hS.settled hpeek
  · intro S token again T hsettled hacts hS
    exact hS.acts hsettled hacts
  · intro S fault r hsound hS hpeek
    exact ⟨((peek_spec hsound .declaration).error hpeek).1.1,
      (peek_founded hsound hS.laid.logs.placed .declaration).error hpeek⟩
  · intro S token fault T hsettled hS hbreaks
    exact founded_of_breaks hsettled hS hbreaks
  · exact sound_ofText source
  · exact .ofText source

end Grammar

/-- A span within the source starts at or after its front, and stops at or before its end. -/
theorem Span.Within.bounds {span : Span} (h : span.Within source) :
    0 ≤ span.start ∧ span.start ≤ span.stop ∧ span.stop ≤ source.length := by
  obtain ⟨start, stop, hle, hstop, rfl⟩ := h
  simp only [Span.start_ofOffsets, Span.stop_ofOffsets]
  omega

namespace Document

theorem structured_of_ofText {failure : Failure} (h : ofText config source = .error failure) :
    failure.Structured source := by
  have hfounded := turns_founded source config
  obtain ⟨error, T, hturns, rfl⟩ | ⟨digits, T, hturns, rfl⟩ | ⟨T, hturns, rfl⟩ :=
    cases_of_ofText_error h
  · have herror : error.Founded source := (hfounded.error hturns).2
    exact ⟨herror.within.bounds, herror, rfl⟩
  · exact (hfounded.error hturns).2
  · exact absurd rfl (hfounded.error hturns).1

end Document

end DiagramText
