import DiagramText.Grammar.Scopes

/-!
# Documents

A document is read turn by turn: a turn consumes a terminator, closes a block, or reads one
statement into the innermost scope. Blocks are opened and closed on the stack of scopes, so only
the limit on nesting bounds their depth. `Document.ofText` reads a whole source; what it completed
before a syntax error comes with the error.
-/

namespace DiagramText

/-- How a source is read. -/
structure Config where
  /-- How many blocks may stand one in another. -/
  maxDepth : Int
  /-- Whether comments become items of the tree. -/
  keepComments : Bool
deriving DecidableEq, Repr

/-- A hundred blocks one in another, and comments kept. -/
def Config.default : Config := ⟨100, true⟩

namespace Grammar

/-- A source being read, with the scopes filled from it. -/
structure Session where
  reader : Reader
  scopes : Scopes

/-- Reads from the source into the scopes, and may fail. -/
abbrev Builder := EStateM Fault Session

/-- Parses from the reader and leaves the scopes alone. -/
def parsing {α : Type} (parser : Parser α) : Builder α := fun session =>
  match parser session.reader with
  | .ok value reader => .ok value { session with reader }
  | .error fault reader => .error fault { session with reader }

/-- Fails with a syntax error. -/
def reject {α : Type} (error : SyntaxError) : Builder α :=
  throw (.malformed error)

/-- Changes the scopes. -/
def scoping (change : Scopes → Scopes) : Builder Unit :=
  modify fun session => { session with scopes := change session.scopes }

/-- The item of a comment: its text without the marks around it. -/
def commentItem (token : Token) : Item :=
  if token.kind = .comment then .comment ((token.text.drop 1).takeWhile (!isBreak ·)) token.span
  else .blockComment ((token.text.drop 3).take (token.text.length - 6)) token.span

/-- The items of comments, if they are kept. -/
def commentItems (config : Config) (comments : List Token) : List Item :=
  if config.keepComments then comments.map commentItem else []

/-- Moves the collected comments into the innermost scope. -/
def placeComments (config : Config) : Builder Unit := do
  let comments ← parsing Reader.takeComments
  scoping (·.add (commentItems config comments))

/-- Opens a block, if the limit on nesting allows one more. -/
def openBlock (config : Config) (block : OpenBlock) : Builder Unit := do
  if config.maxDepth < (← get).scopes.blocks.length + 1 then
    reject (.tooDeep config.maxDepth block.brace.span)
  scoping (·.push block)

/-- Closes the innermost block. -/
def closeBlock : Builder Unit := do
  let closing ← parsing (Reader.advance .declaration)
  scoping (·.pop closing.span)
  parsing finishBlock

/-- One turn; whether another follows. -/
def turn (config : Config) : Builder Bool := do
  let token ← parsing (Reader.peek .declaration)
  placeComments config
  let blocks := (← get).scopes.blocks
  if token.kind = .terminator then
    let _ ← parsing (Reader.advance .declaration)
    return true
  else if token.kind = .eof then
    match blocks with
    | [] => return false
    | block :: _ => reject (.unclosedBlock block.brace.span)
  else if token.isPunct '\x7d' then
    if blocks.isEmpty then
      reject (.unexpected "declaration".toList ["import".toList] token)
    closeBlock
    return true
  else
    match ← parsing statement with
    | .item item => scoping (·.add [item])
    | .opening target label brace => openBlock config ⟨brace, target, label, []⟩
    return true

/-- Takes turns until none follows, at most `limit`. -/
def turnsUpTo (config : Config) : (limit : Nat) → Builder Unit
  | 0 => throw .stalled
  | limit + 1 => do
    if ← turn config then turnsUpTo config limit

/-- Reads a source to its end. Every turn but the last consumes, so there are at most as many as
characters, and one more. -/
def run (config : Config) (source : Text) : EStateM.Result Fault Session Unit :=
  turnsUpTo config (source.length + 1) ⟨.ofText source, .empty⟩

end Grammar

/-- Why a source was not read, with the tree of what was completed before a syntax error. -/
inductive Failure where
  | malformed (error : SyntaxError) (completed : Document)
  | numeralTooLong (digits : Nat)
  | stalled

namespace Document

open Grammar

/-- The document of some items from a source. -/
def ofItems (source : Text) (items : List Item) : Document :=
  ⟨items, .ofOffsets source 0 source.length⟩

/-- The tree of what a session completed, the comments ahead included. -/
def ofSession (config : Config) (source : Text) (session : Session) : Document :=
  .ofItems source
    (session.scopes.add (commentItems config session.reader.comments)).unfinished

/-- Reads a source. -/
def ofText (config : Config) (source : Text) : Except Failure Document :=
  match run config source with
  | .ok _ session => .ok (.ofItems source session.scopes.top)
  | .error (.malformed error) session =>
    .error (.malformed error (.ofSession config source session))
  | .error (.numeralTooLong digits) _ => .error (.numeralTooLong digits)
  | .error .stalled _ => .error .stalled

end Document

end DiagramText
