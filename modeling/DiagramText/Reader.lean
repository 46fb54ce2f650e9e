import DiagramText.Error

/-!
# The token reader

A reader looks one token ahead of what was consumed. The one who asks names the mode, and a token
looked at in one mode is read again from its start when another mode asks. Comments are passed
over and collected, and the reader remembers whether a line comment ended the line before the
token ahead.
-/

namespace DiagramText

/-- A token that was looked at and not consumed, with the mode it was read in and the cursor at
its start. -/
structure Lookahead where
  token : Token
  mode : Mode
  origin : Cursor
deriving DecidableEq, Repr

/-- A source part of which was consumed. -/
structure Reader where
  cursor : Cursor
  lookahead : Option Lookahead
  /-- Comments passed over and not taken yet. -/
  comments : List Token
  /-- Whether a line comment ended the line before the token ahead. -/
  lineBreak : Bool
deriving DecidableEq, Repr

/-- Takes tokens from a reader, and may fail; the reader then stays as it was at the failure. -/
abbrev Parser := EStateM Fault Reader

namespace Reader

/-- A source of which nothing was consumed. -/
def ofText (source : Text) : Reader :=
  ⟨.ofText source, none, [], false⟩

/-- How many characters were not consumed. -/
def ahead (reader : Reader) : Nat :=
  match reader.lookahead with
  | some lookahead => lookahead.origin.rest.length
  | none => reader.cursor.rest.length

/-- Fails with a syntax error. -/
def fail {α : Type} (error : SyntaxError) : Parser α :=
  throw (.malformed error)

/-- Reads one token at the cursor and returns it with the cursor at its start. -/
def readToken (mode : Mode) : Parser (Token × Cursor) := fun reader =>
  let here := reader.cursor.skip mode
  match here.token mode with
  | .ok token =>
    .ok (token, here) { reader with cursor := here.advance token.text.length }
  | .error error => .error (.malformed (.lexical error)) { reader with cursor := here }

/-- Puts a comment aside. One that ends with a line break ends the line. -/
def collect (comment : Token) : Parser Unit :=
  modify fun reader =>
    { reader with
      comments := reader.comments ++ [comment]
      lineBreak := reader.lineBreak ||
        (comment.kind == .comment && comment.text.getLast?.any isBreak) }

/-- Reads up to a token that is no comment and keeps it ahead, in at most `limit` turns. -/
def fillUpTo (mode : Mode) : (limit : Nat) → Parser Token
  | 0 => throw .stalled
  | limit + 1 => do
    let (token, origin) ← readToken mode
    if token.kind.isComment then
      collect token
      fillUpTo mode limit
    else
      modify fun reader => { reader with lookahead := some ⟨token, mode, origin⟩ }
      return token

/-- Reads up to a token that is no comment and keeps it ahead. -/
def fill (mode : Mode) : Parser Token := fun reader =>
  fillUpTo mode (reader.cursor.rest.length + 1) reader

/-- The token ahead, as the mode reads it. -/
def peek (mode : Mode) : Parser Token := do
  let reader ← get
  match reader.lookahead with
  | none => fill mode
  | some lookahead =>
    if lookahead.mode = mode then return lookahead.token
    set { reader with cursor := lookahead.origin, lookahead := none }
    fill mode

/-- The token ahead, unless a line comment ended the line before it. -/
def peekSameLine (mode : Mode) : Parser (Option Token) := do
  let token ← peek mode
  return if (← get).lineBreak then none else some token

/-- Consumes the token ahead. The end of the source stays ahead. -/
def advance (mode : Mode) : Parser Token := do
  let token ← peek mode
  if token.kind ≠ .eof then
    modify fun reader => { reader with lookahead := none, lineBreak := false }
  return token

/-- Consumes a mark of punctuation, which has to stand ahead. -/
def expect (mode : Mode) (mark : Text) : Parser Token := do
  let token ← peek mode
  if token.isPunctOf [mark] then advance mode
  else fail (.unexpected mark.display [] token)

/-- Takes the comments that were collected. -/
def takeComments : Parser (List Token) := do
  let reader ← get
  set { reader with comments := [] }
  return reader.comments

/-- Repeats a step until it gives nothing, in at most `limit` turns, and returns what it gave. -/
def manyUpTo {α : Type} (step : Parser (Option α)) : (limit : Nat) → Parser (List α)
  | 0 => throw .stalled
  | limit + 1 => do
    match ← step with
    | none => return []
    | some value => return value :: (← manyUpTo step limit)

/-- Repeats a step until it gives nothing and returns what it gave. A step that gives something
has to consume something. -/
def many {α : Type} (step : Parser (Option α)) : Parser (List α) := fun reader =>
  manyUpTo step (reader.ahead + 1) reader

end Reader

end DiagramText
