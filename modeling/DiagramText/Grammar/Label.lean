import DiagramText.Grammar.Name

/-!
# Labels

    label       = code | literal | constraints
    literal     = integer | float | boolean | quoted | text
    constraints = "[" (name ";"?)+ "]"

A number or boolean is read as such wherever its token is one; all else that is neither quoted nor
fenced is free text.
-/

namespace DiagramText.Grammar

open Reader

/-- The value of a number as written. -/
def numberValue (raw : Text) : Parser Scalar :=
  if raw.contains '.' then return .float (Numeral.fraction raw)
  else
    match Numeral.integer raw with
    | .ok value => return .integer value
    | .error digits => throw (.numeralTooLong digits)

/-- The name of a constraint, with the semicolon that may follow it. -/
def constraintName (others : List Text) : Parser Text := do
  let token ← peek .constraints
  if token.kind ≠ .ident then fail (.unexpected "constraint name".toList others token)
  let _ ← advance .constraints
  if (← peek .constraints).isPunct ';' then
    let _ ← advance .constraints
  return token.text

/-- A list of constraints between brackets. -/
def constraints : Parser Label := do
  let opening ← expect .label ['[']
  let first ← constraintName []
  let others ← many do
    if (← peek .constraints).isPunct ']' then return none
    else return some (← constraintName ["']'".toList])
  let closing ← advance .constraints
  return .constraints (first :: others) (opening.span.cover closing.span)

/-- The label ahead, if one begins here. -/
def label : Parser (Option Label) := do
  let token ← peek .label
  match token.kind with
  | .codeBlock =>
    let _ ← advance .label
    match CodeParts.ofText? token.text with
    | some (.ok parts) => return some (.code parts token.span)
    | some (.error fault) => fail (.lexical ⟨fault, token.span⟩)
    | none => return none
  | .number =>
    let _ ← advance .label
    return some (.scalar (← numberValue token.text) token.text token.span)
  | .boolean =>
    let _ ← advance .label
    return some (.scalar (.boolean (token.text == "true".toList)) token.text token.span)
  | .quoted =>
    let _ ← advance .label
    return some (.scalar (.quoted ((Text.unquote? token.text).getD [])) token.text token.span)
  | .text =>
    let _ ← advance .label
    return some (.scalar (.text token.text) token.text token.span)
  | _ => if token.isPunct '[' then return some (← constraints) else return none

end DiagramText.Grammar
