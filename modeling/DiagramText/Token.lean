import DiagramText.Position
import DiagramText.Text.Display

/-!
# Tokens

The kinds of tokens a diagram source is cut into, the modes that tell which kinds may stand at a
place, and the token itself: a kind, the text as written, and its span.
-/

namespace DiagramText

/-- What a token is. -/
inductive TokenKind where
  /-- A bare name, or a word of an argument or constraint list. -/
  | ident
  /-- A name or label between quotes. -/
  | quoted
  | number
  | boolean
  /-- An arrow or a plain line between two names. -/
  | connection
  /-- A single character of punctuation. -/
  | punct
  /-- A line break or a semicolon. -/
  | terminator
  /-- From a number sign to the end of the line, with its break. -/
  | comment
  /-- Between two triple quotes. -/
  | blockComment
  /-- An at sign with a path, after three dots when it is spread. -/
  | importRef
  /-- The free text of a label. -/
  | text
  /-- Code between fences, with its language. -/
  | codeBlock
  | eof
deriving DecidableEq, Repr

/-- The name of a kind in token lists. -/
def TokenKind.name : TokenKind → String
  | .ident => "Ident"
  | .quoted => "QuotedString"
  | .number => "Number"
  | .boolean => "Boolean"
  | .connection => "ConnectionOp"
  | .punct => "Punct"
  | .terminator => "Eol"
  | .comment => "Comment"
  | .blockComment => "BlockComment"
  | .importRef => "ImportRef"
  | .text => "Text"
  | .codeBlock => "CodeBlock"
  | .eof => "Eof"

/-- Whether tokens of this kind are comments, which the grammar passes over. -/
def TokenKind.isComment (kind : TokenKind) : Bool :=
  kind == .comment || kind == .blockComment

/-- Which tokens may stand at a place: those of statements, of labels, of the arguments of a
method, or of a list of constraints. -/
inductive Mode where
  | declaration
  | label
  | arguments
  | constraints
deriving DecidableEq, Repr

/-- A piece of the source with its kind. -/
structure Token where
  kind : TokenKind
  text : Text
  span : Span
deriving DecidableEq, Repr

namespace Token

/-- Whether the token is one of these marks of punctuation. -/
def isPunctOf (token : Token) (marks : List Text) : Bool :=
  token.kind == .punct && marks.contains token.text

/-- Whether the token is this mark of punctuation. -/
def isPunct (token : Token) (mark : Char) : Bool :=
  token.isPunctOf [[mark]]

/-- The token in the words of an error message. -/
def describe (token : Token) : Text :=
  match token.kind with
  | .eof => "end of input".toList
  | .terminator => if token.text = [';'] then "';'".toList else "end of line".toList
  | _ => token.text.display

/-- The token with its kind, text and place, for inspection. -/
def inspect (token : Token) : Text :=
  "Token(".toList ++ token.kind.name.toList ++ ", ".toList ++ token.text.display ++
    ", ".toList ++ Text.ofInt token.span.line ++ ":".toList ++ Text.ofInt token.span.column ++
    ")".toList

end Token

end DiagramText
