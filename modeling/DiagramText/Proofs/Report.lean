import DiagramText.Error.Report
import DiagramText.Proofs.Failures
import DiagramText.Proofs.Text.Rows

/-!
# Reports of syntax errors

The report of a syntax error shows the row of the source in which the error starts, with its number,
up to two rows before it, and carets from the column of the start on (`SyntaxError.Located`).  This
is so wherever the rows up to that one are lines of the display (`Document.located_of_ofText`).

The proviso is needed.  The display breaks lines at characters such as the vertical tab, which
positions do not count, and it has no line behind the last break.  Then the report shows another
line under the number of the row, or none at all (`Document.not_located_tab`).
-/

namespace DiagramText

namespace Diagnostic

variable {source : Text} {span : Span} {before after : List Text} {row : Text}

/-- Rows without their breaks, behind their numbers. -/
def numbered (first : Nat) (rows : List Text) : List Text :=
  (rows.zipIdx first).map fun row => margin row.2 ++ row.1.unbroken

/-- There is always a caret. -/
theorem caretCount_pos (source : Text) (span : Span) : 0 < caretCount source span := by
  unfold caretCount
  split
  · exact Nat.one_pos
  · omega

/-- The context of a span is its row and the two before it. -/
theorem context_eq (hrows : source.rows = before ++ row :: after)
    (hnumber : span.line = before.length + 1)
    (hdisplayed : ∀ shown ∈ before ++ [row], shown.isDisplayed = true) :
    context source span =
      (((before ++ [row]).drop (before.length - 2)).map Text.unbroken).zipIdx
        (before.length - 2 + 1) := by
  have htake := Text.take_rows hrows
  have hlines : source.lines.take (before.length + 1) = (before ++ [row]).map Text.unbroken := by
    rw [Text.take_lines (htake ▸ hdisplayed), htake]
  have hline : span.line.toNat = before.length + 1 := by omega
  have hfirst : (max 1 (span.line - 2)).toNat = before.length - 2 + 1 := by omega
  simp only [context, hline, hfirst, hlines, Nat.add_sub_cancel, List.map_drop]

/-- Of numbered lines only the one with the number of the span has the carets below it. -/
theorem flatMap_zipIdx {first number : Nat} (shown : List Text) (hnumber : span.line = number)
    (hlast : first + shown.length = number) :
    (((shown ++ [row]).map Text.unbroken).zipIdx first).flatMap (fun line =>
        (margin line.2 ++ line.1) ::
          if (line.2 : Int) = span.line then [marker source span line.2] else []) =
      numbered first (shown ++ [row]) ++ [marker source span number] := by
  induction shown generalizing first with
  | nil =>
    obtain rfl : first = number := hlast
    simp [numbered, hnumber]
  | cons line shown ih =>
    have hother : ¬ (first : Int) = span.line := by
      rw [List.length_cons] at hlast
      omega
    have hrest : first + 1 + shown.length = number := by
      rw [List.length_cons] at hlast
      omega
    simp only [List.cons_append, List.map_cons, List.zipIdx_cons, List.flatMap_cons,
      if_neg hother, ih hrest, numbered, List.nil_append]

/-- The snippet has the rows with their numbers, and the carets below the last. -/
theorem snippet_eq (hrows : source.rows = before ++ row :: after)
    (hnumber : span.line = before.length + 1)
    (hdisplayed : ∀ shown ∈ before ++ [row], shown.isDisplayed = true) :
    snippet source span =
      numbered (before.length - 2 + 1) ((before ++ [row]).drop (before.length - 2)) ++
        [marker source span (before.length + 1)] := by
  have hdrop : (before ++ [row]).drop (before.length - 2) =
      before.drop (before.length - 2) ++ [row] :=
    List.drop_append_of_le_length (by omega)
  rw [snippet, context_eq hrows hnumber hdisplayed, hdrop]
  exact flatMap_zipIdx _ (by omega) (by rw [List.length_drop]; omega)

end Diagnostic

namespace SyntaxError

/-- What the report should be on the row in which the error starts: the row with its number, behind
the at most two rows before it with theirs, and below it carets from the column of the error on. -/
def reportOn (error : SyntaxError) (source filename : Text) (before : List Text) (row : Text) :
    Text :=
  let number := before.length + 1
  Text.join ['\n'] ((filename ++ [':'] ++ error.diagnostic.headline) ::
    (Diagnostic.numbered (before.length - 2 + 1) ((before ++ [row]).drop (before.length - 2)) ++
      [List.replicate ((Diagnostic.margin number).length + (error.span.column - 1)).toNat ' ' ++
        List.replicate (Diagnostic.caretCount source error.span) '^']))

/-- The report of the error shows the right place: `row` is the row of the source that holds the
offset at which the error starts, line and column are counted up to it and in it, and the report is
on this row, with at least one caret. -/
structure Located (error : SyntaxError) (source filename : Text) (before : List Text)
    (row : Text) (after : List Text) : Prop where
  text : source = before.flatten ++ row ++ after.flatten
  place : source.InRow error.span.start.toNat before row after
  number : error.span.line = before.length + 1
  column : error.span.column = error.span.start - before.flatten.length + 1
  carets : 0 < Diagnostic.caretCount source error.span
  report : error.diagnostic.report source filename = error.reportOn source filename before row

/-- In a source of two rows there is one row for the second line. -/
theorem not_located {error : SyntaxError} {source filename first second : Text}
    (hrows : source.rows = [first, second]) (hline : error.span.line = 2)
    (hreport : error.diagnostic.report source filename ≠
      error.reportOn source filename [first] second) (before : List Text) (row : Text)
    (after : List Text) : ¬ error.Located source filename before row after := by
  intro hlocated
  have hlength : before.length = 1 := by
    have := hlocated.number
    omega
  obtain ⟨line, rfl⟩ := List.length_eq_one_iff.mp hlength
  have hsame := hlocated.place.rows
  rw [hrows, List.singleton_append] at hsame
  obtain ⟨rfl, hrest⟩ := List.cons.inj hsame
  obtain ⟨rfl, -⟩ := List.cons.inj hrest
  exact hreport hlocated.report

end SyntaxError

namespace Document

variable {config : Config} {source : Text} {error : SyntaxError} {completed : Document}

/-- The report of a syntax error shows the right place, when the rows of the source up to that of
the error are lines of the display: none of them is empty at the end of the source, and none holds
a character other than line feeds and carriage returns at which the display breaks lines. -/
theorem located_of_ofText (filename : Text)
    (h : ofText config source = .error (.malformed error completed))
    (hdisplayed : ∀ row ∈ source.rows.take error.span.line.toNat, row.isDisplayed = true) :
    ∃ before row after, error.Located source filename before row after := by
  obtain ⟨_, hfounded, _⟩ := structured_of_ofText h
  obtain ⟨start, stop, hle, hstop, hspan⟩ := hfounded.within
  obtain ⟨before, row, after, hrow, hline, hcolumn⟩ :=
    Position.row_of_ofOffset (Nat.le_trans hle hstop)
  have hstart : error.span.start = start := by rw [hspan, Span.start_ofOffsets]
  have hnumber : error.span.line = before.length + 1 := by
    rw [hspan, Span.ofOffsets, Span.upTo, hline]
    rfl
  have hcolumns : error.span.column = error.span.start - before.flatten.length + 1 := by
    have hle := hrow.le
    have hplace : error.span.column = (Position.ofOffset source start).column := by rw [hspan]; rfl
    rw [hstart, hplace, hcolumn]
    omega
  have htoNat : error.span.line.toNat = before.length + 1 := by omega
  rw [htoNat, Text.take_rows hrow.rows] at hdisplayed
  have htext : source = before.flatten ++ row ++ after.flatten := by
    have := source.flatten_rows
    rw [hrow.rows, List.flatten_append, List.flatten_cons, ← List.append_assoc] at this
    exact this.symm
  have hreport : error.diagnostic.report source filename =
      Text.join ['\n'] ((filename ++ [':'] ++ error.diagnostic.headline) ::
        Diagnostic.snippet source error.span) := rfl
  refine ⟨before, row, after, htext, by rw [hstart]; exact hrow, hnumber, hcolumns,
    Diagnostic.caretCount_pos _ _, ?_⟩
  rw [hreport, Diagnostic.snippet_eq hrow.rows hnumber hdisplayed, Diagnostic.marker,
    Int.add_sub_assoc]
  rfl

/-- The error is in the fourth row; the first ends with a carriage return and a line feed, the
second is a carriage return alone. -/
theorem located_of_ofText_fourth :
    ∃ error completed,
      ofText .default ['a', '\r', '\n', '\r', 'b', '\n', '(', 'd'] =
        .error (.malformed error completed) ∧
      (∀ row ∈ (Text.rows ['a', '\r', '\n', '\r', 'b', '\n', '(', 'd']).take
          error.span.line.toNat, row.isDisplayed = true) ∧
      ∃ before row after,
        error.Located ['a', '\r', '\n', '\r', 'b', '\n', '(', 'd'] ['d', '.', 'd', '2'] before row
          after := by
  obtain ⟨error, completed, hfailed, hall⟩ := exists_failed_of_any
    (p := fun found => ((Text.rows ['a', '\r', '\n', '\r', 'b', '\n', '(', 'd']).take
      found.1.span.line.toNat).all Text.isDisplayed)
    (x := ofText .default ['a', '\r', '\n', '\r', 'b', '\n', '(', 'd']) (by decide +kernel)
  have hdisplayed := List.all_eq_true.mp hall
  exact ⟨error, completed, hfailed, hdisplayed, located_of_ofText _ hfailed hdisplayed⟩

/-- In a source of two rows the error is in the second, and the report is on something else. -/
theorem exists_not_located {filename : Text} (first second : Text)
    (hrows : source.rows = [first, second])
    (hshown : (failed? (ofText .default source)).any (fun found => found.1.span.line == 2 &&
      found.1.diagnostic.report source filename !=
        found.1.reportOn source filename [first] second) = true) :
    ∃ error completed, ofText .default source = .error (.malformed error completed) ∧
      ∀ before row after, ¬ error.Located source filename before row after := by
  obtain ⟨error, completed, hfailed, hcheck⟩ := exists_failed_of_any hshown
  rw [Bool.and_eq_true, beq_iff_eq, bne_iff_ne] at hcheck
  exact ⟨error, completed, hfailed, SyntaxError.not_located hrows hcheck.1 hcheck.2⟩

/-- The one comment holds a vertical tab: the display breaks it there, and what the report shows for
the second row is the rest of the comment.  The other ends the source with a line break: the display
has no line behind it, and the report on the end of the source has neither row nor caret. -/
theorem not_located_tab :
    (∃ error completed,
      ofText .default ['#', '\x0b', '\n', '\x22'] = .error (.malformed error completed) ∧
        ∀ before row after,
          ¬ error.Located ['#', '\x0b', '\n', '\x22'] ['d', '.', 'd', '2'] before row after) ∧
      ∃ error completed,
        ofText .default ['a', '-', '>', '#', '\n'] = .error (.malformed error completed) ∧
          ∀ before row after,
            ¬ error.Located ['a', '-', '>', '#', '\n'] ['d', '.', 'd', '2'] before row after := by
  constructor
  · exact exists_not_located ['#', '\x0b', '\n'] ['\x22'] rfl (by decide +kernel)
  · exact exists_not_located ['a', '-', '>', '#', '\n'] [] rfl (by decide +kernel)

end Document

end DiagramText
