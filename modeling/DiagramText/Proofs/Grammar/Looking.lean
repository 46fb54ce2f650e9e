import DiagramText.Proofs.Grammar.Written
import DiagramText.Proofs.Reader.Looking

/-!
# The grammar looks ahead and consumes

Every program of the grammar is put together from looks ahead and consumptions,
up to the whole statement (`Grammar.statement_looks`).
-/

namespace DiagramText.Grammar

open Reader

/-! ## Names, expressions and references -/

/-- A part of a name looks ahead and consumes one token. -/
theorem namePart_looks : Looks namePart := by
  apply (Looks.peek _).bind
  intro token
  split
  · exact (Looks.advance _).bind fun _ => .pure _
  · exact (Looks.advance _).bind fun _ => .pure _
  · exact .fail _

theorem fieldStep_looks : Looks fieldStep := by
  apply (Looks.peekSameLine _).bind
  intro seen
  apply Looks.ite
  · exact (Looks.advance _).bind fun _ => namePart_looks.bind fun _ => .pure _
  · exact .pure _

/-- The fields of a name are a repetition of looks. -/
theorem fields_looks : Looks fields :=
  fieldStep_looks.many

theorem identifier_looks : Looks identifier :=
  namePart_looks.bind fun _ => fields_looks.bind fun _ => .pure _

theorem hopStep_looks : Looks hopStep := by
  apply (Looks.peekSameLine _).bind
  intro seen
  cases seen with
  | none => exact .pure _
  | some token =>
      apply Looks.ite
      · exact (Looks.advance _).bind fun _ => identifier_looks.bind fun _ => .pure _
      · exact .pure _

theorem expressionFrom_looks (first : Identifier) : Looks (expressionFrom first) :=
  hopStep_looks.many.bind fun _ => .pure _

theorem expression_looks : Looks expression :=
  identifier_looks.bind expressionFrom_looks

/-- A reference looks ahead before each of its marks. -/
theorem reference_looks : Looks reference := by
  apply (Looks.expect _ _).bind
  intro opening
  apply expression_looks.bind
  intro expression
  apply (Looks.peek _).bind
  intro token
  refine Looks.guard fun _ => (Looks.advance _).bind fun _ => (Looks.peek _).bind fun token => ?_
  refine Looks.guard fun _ => (Looks.advance _).bind fun _ => (Looks.peek _).bind fun index => ?_
  refine Looks.guard fun _ => (Looks.advance _).bind fun _ => (Looks.peek _).bind fun closing => ?_
  refine Looks.guard fun _ => (Looks.advance _).bind fun _ => fields_looks.bind fun fields => ?_
  split
  · exact .throw _
  · exact .pure _

/-! ## Labels -/

theorem numberValue_looks (raw : Text) : Looks (numberValue raw) := by
  apply Looks.ite
  · exact .pure _
  · split
    · exact .pure _
    · exact .throw _

theorem constraintName_looks (others : List Text) : Looks (constraintName others) := by
  apply (Looks.peek _).bind
  intro token
  refine Looks.guard fun _ => (Looks.advance _).bind fun _ => (Looks.peek _).bind fun next => ?_
  apply Looks.ite
  · exact (Looks.advance _).bind fun _ => .pure _
  · exact .pure _

theorem constraintStep_looks : Looks constraintStep := by
  apply (Looks.peek _).bind
  intro token
  apply Looks.ite
  · exact .pure _
  · exact (constraintName_looks _).bind fun _ => .pure _

theorem constraints_looks : Looks constraints := by
  apply (Looks.expect _ _).bind
  intro opening
  apply (constraintName_looks _).bind
  intro first
  apply constraintStep_looks.many.bind
  intro others
  exact (Looks.advance _).bind fun _ => .pure _

/-- A label looks ahead once, and goes on by the kind of what it sees. -/
theorem label_looks : Looks label := by
  apply (Looks.peek _).bind
  intro token
  split
  · apply (Looks.advance _).bind
    intro _
    split
    · exact .pure _
    · exact .fail _
    · exact .pure _
  · exact (Looks.advance _).bind fun _ => (numberValue_looks _).bind fun _ => .pure _
  · exact (Looks.advance _).bind fun _ => .pure _
  · exact (Looks.advance _).bind fun _ => .pure _
  · exact (Looks.advance _).bind fun _ => .pure _
  · apply Looks.ite
    · exact constraints_looks.bind fun _ => .pure _
    · exact .pure _

/-! ## Methods -/

theorem wordStep_looks : Looks wordStep := by
  apply (Looks.peek _).bind
  intro token
  apply Looks.ite
  · exact .pure _
  · apply Looks.ite
    · exact (Looks.advance _).bind fun _ => .pure _
    · exact .fail _

/-- A list of arguments looks ahead before each word. -/
theorem argumentList_looks : Looks argumentList := by
  apply (Looks.expect _ _).bind
  intro opening
  apply wordStep_looks.many.bind
  intro words
  apply (Looks.advance _).bind
  intro closing
  split
  · exact .pure _
  · exact .fail _

theorem methodFrom_looks (name : Identifier) : Looks (methodFrom name) := by
  apply argumentList_looks.bind
  intro arguments
  apply (Looks.peekSameLine _).bind
  intro seen
  apply Looks.ite
  · exact (Looks.advance _).bind fun _ => argumentList_looks.bind fun _ => .pure _
  · exact .pure _

/-! ## Statements -/

/-- The end of a statement looks ahead and asks whether a line has ended. -/
theorem finish_looks (wanted : Text) (others : List Text) : Looks (finish wanted others) := by
  apply (Looks.peek _).bind
  intro token
  apply Looks.ite
  · exact (Looks.advance _).bind fun _ => .pure _
  · have hrest : ∀ ended : Bool, Looks
        (if (token.kind ≠ .eof && !token.isPunct '\x7d' && !ended) = true then
          fail (.unexpected wanted others token)
        else (pure () : Parser Unit)) := fun ended => .ite (.fail _) (.pure _)
    exact .line hrest

theorem finishBlock_looks : Looks finishBlock := by
  apply (Looks.peek _).bind
  intro token
  apply Looks.ite
  · exact (Looks.advance _).bind fun _ => .pure _
  · exact .pure _

theorem declarationAfterLabel_looks (target : Target) (colon : Span) (label : Option Label) :
    Looks (declarationAfterLabel target colon label) := by
  apply (Looks.peekSameLine _).bind
  intro seen
  apply Looks.ite
  · exact (Looks.expect _ _).bind fun _ => .pure _
  · cases label with
    | none => exact (finish_looks _ _).bind fun _ => .pure _
    | some label => exact (finish_looks _ _).bind fun _ => .pure _

theorem declarationAfterColon_looks (target : Target) (colon : Span) :
    Looks (declarationAfterColon target colon) := by
  apply (Looks.peekSameLine _).bind
  intro seen
  cases seen with
  | none => exact (finish_looks _ _).bind fun _ => .pure _
  | some token =>
      apply Looks.ite
      · exact (Looks.advance _).bind fun _ => (finish_looks _ _).bind fun _ => .pure _
      · exact label_looks.bind fun found => declarationAfterLabel_looks target colon found

theorem declarationFrom_looks (target : Target) : Looks (declarationFrom target) := by
  apply (Looks.peekSameLine _).bind
  intro seen
  apply Looks.ite
  · exact (Looks.advance _).bind fun colon => declarationAfterColon_looks target colon.span
  · exact (finish_looks _ _).bind fun _ => .pure _

/-- A whole statement looks ahead and consumes. -/
theorem statement_looks : Looks statement := by
  apply (Looks.peek _).bind
  intro token
  apply Looks.ite
  · exact (Looks.advance _).bind fun _ => (finish_looks _ _).bind fun _ => .pure _
  · apply Looks.ite
    · exact reference_looks.bind fun reference => declarationFrom_looks (.reference reference)
    · apply identifier_looks.bind
      intro first
      apply (Looks.peekSameLine _).bind
      intro seen
      apply Looks.ite
      · exact (methodFrom_looks first).bind fun _ => (finish_looks _ _).bind fun _ => .pure _
      · exact (expressionFrom_looks first).bind fun expression =>
          declarationFrom_looks (.expression expression)

end DiagramText.Grammar
