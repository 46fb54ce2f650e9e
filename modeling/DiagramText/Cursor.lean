import DiagramText.Lexeme.Scan

/-!
# The cursor

A cursor is the text ahead and its place in the source. Reading at it gives the scanned lexeme a
text and a span; skipping and advancing keep the place in step with the text.
-/

namespace DiagramText

/-- A fault of scanning, at its place. -/
structure LexError where
  fault : LexFault
  span : Span
deriving DecidableEq, Repr

/-- A place in a source with the text ahead of it. -/
structure Cursor where
  rest : Text
  position : Position
deriving DecidableEq, Repr

namespace Cursor

/-- The cursor at the front of a source. -/
def ofText (source : Text) : Cursor :=
  ⟨source, .start⟩

/-- The cursor `count` characters on. -/
def advance (cursor : Cursor) (count : Nat) : Cursor :=
  ⟨cursor.rest.drop count, cursor.position.advance count cursor.rest⟩

/-- The cursor at an offset of a source, or at the nearest one if the source has no such offset. -/
def atOffset (source : Text) (offset : Int) : Cursor :=
  (ofText source).advance (min offset.toNat source.length)

/-- The span of the next `count` characters. -/
def spanOf (cursor : Cursor) (count : Nat) : Span :=
  .upTo cursor.position (cursor.position.offset + count)

/-- The cursor past all that the mode skips. -/
def skip (mode : Mode) (cursor : Cursor) : Cursor :=
  cursor.advance (Text.run mode.skips cursor.rest)

/-- The token that begins right at the cursor. -/
def token (mode : Mode) (cursor : Cursor) : Except LexError Token :=
  match mode.scan cursor.rest with
  | .ok lexeme =>
    .ok ⟨lexeme.kind, cursor.rest.take lexeme.length, cursor.spanOf lexeme.length⟩
  | .error fault => .error ⟨fault, cursor.spanOf fault.extent⟩

/-- The next token and the cursor after it. On a fault the cursor has passed what the mode skips
and stands at the fault. -/
def next (mode : Mode) (cursor : Cursor) : Except LexError Token × Cursor :=
  let here := cursor.skip mode
  match here.token mode with
  | .ok token => (.ok token, here.advance token.text.length)
  | .error error => (.error error, here)

/-- The tokens read up to the end or up to a fault. -/
structure Reading where
  tokens : List Token
  fault : Option LexError
  cursor : Cursor

/-- Reads at most `limit` tokens. -/
def readUpTo (mode : Mode) : (limit : Nat) → Cursor → Reading
  | 0, cursor => ⟨[], none, cursor⟩
  | limit + 1, cursor =>
    match cursor.next mode with
    | (.error error, after) => ⟨[], some error, after⟩
    | (.ok token, after) =>
      if token.kind = .eof then ⟨[token], none, after⟩
      else
        let reading := readUpTo mode limit after
        { reading with tokens := token :: reading.tokens }

/-- Reads all tokens in one mode. Every token but the last has a character of its own, so there
are at most as many as characters, and the end. -/
def read (mode : Mode) (cursor : Cursor) : Reading :=
  readUpTo mode (cursor.rest.length + 1) cursor

end Cursor

/-- The tokens of a source in one mode. -/
def tokenize (mode : Mode) (source : Text) : Cursor.Reading :=
  (Cursor.ofText source).read mode

end DiagramText
