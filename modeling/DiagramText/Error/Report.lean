import DiagramText.Error
import DiagramText.Text.Display

/-!
# Error reports

A diagnostic is a message with a span, or without one when it is about no place. Its report shows
the place, the message, the line it is about with up to two lines before it, and a row of carets
under the span.
-/

namespace DiagramText

/-- A message about a place in a source. -/
structure Diagnostic where
  message : Text
  span : Option Span
deriving DecidableEq, Repr

/-- The diagnostic of a syntax error. -/
def SyntaxError.diagnostic (error : SyntaxError) : Diagnostic :=
  ⟨error.message, some error.span⟩

namespace Diagnostic

/-- The message after its line and column. -/
def headline (diagnostic : Diagnostic) : Text :=
  match diagnostic.span with
  | some span => span.place ++ ": ".toList ++ diagnostic.message
  | none => diagnostic.message

/-- The margin of a numbered line: the number in at least four columns, and a bar. -/
def margin (number : Nat) : Text :=
  let digits := Text.ofNat number
  List.replicate (4 - digits.length) ' ' ++ digits ++ " | ".toList

/-- How many carets mark a span: one for each of its characters within the source, at least one,
and only one when the span goes past a line feed. -/
def caretCount (source : Text) (span : Span) : Nat :=
  if (source.slice span.start span.stop).contains '\n' then 1
  else (max 1 (min span.stop source.length - span.start)).toNat

/-- The carets under the span, below a line with the given number. -/
def marker (source : Text) (span : Span) (number : Nat) : Text :=
  List.replicate ((margin number).length + span.column - 1).toNat ' ' ++
    List.replicate (caretCount source span) '^'

/-- The line a span begins in with up to two lines before it, numbered. -/
def context (source : Text) (span : Span) : List (Text × Nat) :=
  let first := (max 1 (span.line - 2)).toNat
  ((source.lines.take span.line.toNat).drop (first - 1)).zipIdx first

/-- The numbered lines of a span, with the marker under its own. -/
def snippet (source : Text) (span : Span) : List Text :=
  (context source span).flatMap fun (line, number) =>
    (margin number ++ line) :: if number = span.line then [marker source span number] else []

/-- The whole report on a source that goes by a name. -/
def report (diagnostic : Diagnostic) (source filename : Text) : Text :=
  match diagnostic.span with
  | none => filename ++ ": ".toList ++ diagnostic.message
  | some span =>
    Text.join ['\n'] ((filename ++ [':'] ++ diagnostic.headline) :: snippet source span)

end Diagnostic

end DiagramText
