import DiagramText.Reader
import DiagramText.Tree

/-!
# Names, expressions and references

    identifier = (ident | quoted) ("." (ident | quoted))*
    expression = identifier (connection identifier)*
    reference  = "(" expression ")" "[" digits "]" ("." (ident | quoted))*
-/

namespace DiagramText.Grammar

open Reader

/-- Whether a token that may be missing is this mark of punctuation. -/
def isMark (token : Option Token) (mark : Char) : Bool :=
  token.any (·.isPunct mark)

/-- One part of a name, bare or quoted. -/
def namePart : Parser Identifier := do
  let token ← peek .declaration
  match token.kind with
  | .ident =>
    let _ ← advance .declaration
    return ⟨token.text, none, [], token.span⟩
  | .quoted =>
    let _ ← advance .declaration
    return ⟨(Text.unquote? token.text).getD [], token.text.head?.bind QuoteMark.ofChar?, [],
      token.span⟩
  | _ => fail (.unexpected "identifier".toList ["quoted string".toList] token)

/-- The fields after a name, each behind a dot on the line of what precedes it. -/
def fields : Parser (List Identifier) :=
  many do
    if isMark (← peekSameLine .declaration) '.' then
      let _ ← advance .declaration
      return some (← namePart)
    else return none

/-- The span of the last name, or `default` where there is none. -/
def lastSpan (default : Span) (identifiers : List Identifier) : Span :=
  (identifiers.getLast?.map (·.span)).getD default

/-- A name with its fields. -/
def identifier : Parser Identifier := do
  let head ← namePart
  let fields ← fields
  return { head with fields, span := head.span.cover (lastSpan head.span fields) }

/-- The rest of an expression after its first name. -/
def expressionFrom (first : Identifier) : Parser Expression := do
  let hops ← many do
    match ← peekSameLine .declaration with
    | some token =>
      if token.kind = .connection then
        let _ ← advance .declaration
        return some ((⟨token.text, token.span⟩ : Connection), ← identifier)
      else return none
    | none => return none
  let others := hops.map (·.2)
  return ⟨first, others, hops.map (·.1), first.span.cover (lastSpan first.span others)⟩

/-- Names joined by connections. -/
def expression : Parser Expression := do
  expressionFrom (← identifier)

/-- A connection between the names of an expression, by its number. -/
def reference : Parser Reference := do
  let opening ← expect .declaration ['(']
  let expression ← expression
  let token ← peek .declaration
  if !token.isPunct ')' then fail (.unexpected "connection".toList ["')'".toList] token)
  let _ ← advance .declaration
  let token ← peek .declaration
  if !token.isPunct '[' then fail (.badReference .missingIndex token)
  let _ ← advance .declaration
  let index ← peek .declaration
  if index.kind ≠ .ident || !index.text.all Char.isDigit then fail (.badReference .badIndex index)
  let _ ← advance .declaration
  let closing ← peek .declaration
  if !closing.isPunct ']' then fail (.badReference .missingBracket closing)
  let _ ← advance .declaration
  let fields ← fields
  match Numeral.natural index.text with
  | .error digits => throw (.numeralTooLong digits)
  | .ok value =>
    return ⟨expression, value, fields, opening.span.cover (lastSpan closing.span fields)⟩

end DiagramText.Grammar
