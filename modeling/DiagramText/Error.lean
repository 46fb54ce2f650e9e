import DiagramText.Cursor

/-!
# Syntax errors

Why a source is no diagram. Each cause carries what its message needs, and `SyntaxError.message`
is the one place where the wording stands. A fault is what stops a parse: a syntax error, an
integer with more digits than are read, or a repetition that consumes nothing, which no parse
comes to.
-/

namespace DiagramText

/-- What is wrong with the index of a reference to a connection. -/
inductive ReferenceFault where
  | missingIndex
  | badIndex
  | missingBracket
deriving DecidableEq, Repr

/-- What is wrong with the arguments of a method. -/
inductive SignatureFault where
  | emptyArgument
  | surplusWords (words : List Text)
  | badName (name : Text)
  | untyped (names : List Text)
deriving DecidableEq, Repr

/-- Why a source is no diagram. -/
inductive SyntaxError where
  /-- No token can be cut here. -/
  | lexical (error : LexError)
  /-- One of the named forms should stand here, and another token does. -/
  | unexpected (wanted : Text) (others : List Text) (found : Token)
  /-- The source ends inside a block. -/
  | unclosedBlock (brace : Span)
  | badReference (fault : ReferenceFault) (found : Token)
  | badSignature (fault : SignatureFault) (span : Span)
  /-- Blocks stand one in another beyond the limit. -/
  | tooDeep (limit : Int) (span : Span)
deriving DecidableEq, Repr

namespace ReferenceFault

/-- The fault in words, up to the token that was found. -/
def message : ReferenceFault → Text
  | .missingIndex => "expected '[index]' after connection reference, found ".toList
  | .badIndex => "connection reference index must be a number, found ".toList
  | .missingBracket => "expected ']' after connection reference index, found ".toList

end ReferenceFault

namespace SignatureFault

/-- The fault in words. -/
def message : SignatureFault → Text
  | .emptyArgument => "empty argument in argument list".toList
  | .surplusWords words => "expected 'name type', found ".toList ++ (Text.join [' '] words).display
  | .badName name => "invalid argument name ".toList ++ name.display
  | .untyped names => "no type given for argument(s) ".toList ++ Text.join [',', ' '] names

end SignatureFault

/-- The alternatives in words, with an "or" before the last. -/
def alternatives : Text → List Text → Text
  | wanted, [] => wanted
  | wanted, [last] => wanted ++ " or ".toList ++ last
  | wanted, next :: others => wanted ++ ", ".toList ++ alternatives next others

/-- A line and a column with a colon between them. -/
def Span.place (span : Span) : Text :=
  Text.ofInt span.line ++ [':'] ++ Text.ofInt span.column

namespace SyntaxError

/-- Where the error is. -/
def span : SyntaxError → Span
  | .lexical error => error.span
  | .unexpected _ _ found => found.span
  | .unclosedBlock brace => brace
  | .badReference _ found => found.span
  | .badSignature _ span => span
  | .tooDeep _ span => span

/-- The error in words. -/
def message : SyntaxError → Text
  | .lexical error => error.fault.message
  | .unexpected wanted others found =>
    "expected ".toList ++ alternatives wanted others ++ ", found ".toList ++ found.describe
  | .unclosedBlock brace =>
    "expected '\x7d' to close the block opened at ".toList ++ brace.place
  | .badReference fault found => fault.message ++ found.describe
  | .badSignature fault _ => fault.message
  | .tooDeep limit _ =>
    "blocks nested deeper than ".toList ++ Text.ofInt limit ++ " levels".toList

end SyntaxError

/-- What stops a parse. -/
inductive Fault where
  | malformed (error : SyntaxError)
  /-- An integer is written with this many digits, more than are read. -/
  | numeralTooLong (digits : Nat)
  /-- A repetition went on without consuming anything. -/
  | stalled
deriving DecidableEq, Repr

end DiagramText
