import DiagramText.Grammar.Label
import DiagramText.Grammar.Signature

/-!
# Statements

    statement   = import | method | declaration
    declaration = (expression | reference) (":" (import | label? "{"?))?

A statement ends with its line, with a semicolon, before a closing brace, or at the end of the
source. A declaration whose block begins is handed over at the brace: what stands in the block is
not part of the statement.
-/

namespace DiagramText.Grammar

open Reader

/-- What is read in one go: a whole item, or a declaration up to the brace of its block. -/
inductive Statement where
  | item (item : Item)
  | opening (target : Target) (label : Option Label) (brace : Token)

/-- The import that a token stands for. -/
def importOf (token : Token) : Import :=
  let spread := "...".toList.isPrefixOf token.text
  ⟨token.text.drop (if spread then 4 else 1), spread, token.span⟩

/-- Consumes the terminator of a statement. None is needed before a closing brace, at the end of
the source, or where a line comment ended the line. -/
def finish (wanted : Text) (others : List Text) : Parser Unit := do
  let token ← peek .declaration
  if token.kind = .terminator then
    let _ ← advance .declaration
  else if token.kind ≠ .eof && !token.isPunct '\x7d' && !(← get).lineBreak then
    fail (.unexpected wanted others token)

/-- Consumes a terminator after a block, where none is needed. -/
def finishBlock : Parser Unit := do
  let token ← peek .declaration
  if token.kind = .terminator then
    let _ ← advance .declaration

/-- The end of a line, as messages call it. -/
def lineEnd : Text := "end of line".toList

/-- The brace that opens a block, as messages call it. -/
def brace : Text := "'\x7b'".toList

/-- The rest of a declaration after its target, a colon and perhaps a label. -/
def declarationAfterLabel (target : Target) (colon : Span) (label : Option Label) :
    Parser Statement := do
  if isMark (← peekSameLine .label) '\x7b' then
    return .opening target label (← expect .label ['\x7b'])
  else
    match label with
    | some label =>
      finish brace [lineEnd]
      return .item (.declaration ⟨target, true, some label, none, target.span.cover label.span⟩)
    | none =>
      finish "label".toList [brace, lineEnd]
      return .item (.declaration ⟨target, true, none, none, target.span.cover colon⟩)

/-- The rest of a declaration after its target and a colon. -/
def declarationAfterColon (target : Target) (colon : Span) : Parser Statement := do
  match ← peekSameLine .label with
  | none =>
    finish "connection".toList ["':'".toList, lineEnd]
    return .item (.declaration ⟨target, true, none, none, target.span.cover colon⟩)
  | some token =>
    if token.kind = .importRef then
      let _ ← advance .label
      finish lineEnd []
      return .item
        (.declaration ⟨target, true, none, some (importOf token), target.span.cover token.span⟩)
    else declarationAfterLabel target colon (← label)

/-- The rest of a declaration after its target. -/
def declarationFrom (target : Target) : Parser Statement := do
  if isMark (← peekSameLine .declaration) ':' then
    let colon ← advance .declaration
    declarationAfterColon target colon.span
  else
    finish "connection".toList ["':'".toList, lineEnd]
    return .item (.declaration ⟨target, false, none, none, target.span⟩)

/-- The statement ahead. -/
def statement : Parser Statement := do
  let token ← peek .declaration
  if token.kind = .importRef then
    let _ ← advance .declaration
    finish lineEnd []
    return .item (.importing (importOf token))
  else if token.isPunct '(' then
    declarationFrom (.reference (← reference))
  else
    let first ← identifier
    if isMark (← peekSameLine .declaration) '(' then
      let method ← methodFrom first
      finish lineEnd []
      return .item (.method method)
    else
      declarationFrom (.expression (← expressionFrom first))

end DiagramText.Grammar
