import DiagramText.Token

/-!
# Lexemes

A lexeme is what a token is before it has a place: a kind and a length. A recogniser looks at the
text ahead, and at nothing else, and either finds a lexeme at its front, finds none, or finds the
start of a form that is never closed. Of several recognisers the first that finds anything decides.
-/

namespace DiagramText

/-- The fences around a code block. -/
inductive FenceStyle where
  | backtick
  | triple
  | double
  | single
deriving DecidableEq, Repr

namespace FenceStyle

/-- What opens a block of this style. -/
def opener : FenceStyle → Text
  | .backtick => ['|', '\x60']
  | .triple => ['|', '|', '|']
  | .double => ['|', '|']
  | .single => ['|']

/-- What closes a block of this style. -/
def closer : FenceStyle → Text
  | .backtick => ['\x60', '|']
  | .triple => ['|', '|', '|']
  | .double => ['|', '|']
  | .single => ['|']

end FenceStyle

/-- Why no token can be cut from the text ahead. -/
inductive LexFault where
  | unterminatedComment
  | unterminatedString
  | missingLanguage (style : FenceStyle)
  | unterminatedCode (style : FenceStyle)
  | unexpectedCharacter (c : Char)
deriving DecidableEq, Repr

namespace LexFault

/-- How many characters a fault points at: the mark that opened the form, or the character. -/
def extent : LexFault → Nat
  | .unterminatedComment => 3
  | .unterminatedString => 1
  | .missingLanguage style => style.opener.length
  | .unterminatedCode style => style.opener.length
  | .unexpectedCharacter _ => 1

/-- The fault in words. -/
def message : LexFault → Text
  | .unterminatedComment => "unterminated block comment".toList
  | .unterminatedString => "unterminated string".toList
  | .missingLanguage style => "expected a language tag after ".toList ++ style.opener.display
  | .unterminatedCode style =>
    "unterminated code block, expected closing ".toList ++ style.closer.display
  | .unexpectedCharacter c => "unexpected character ".toList ++ Text.display [c]

end LexFault

/-- A kind of token and the length of its text. -/
structure Lexeme where
  kind : TokenKind
  length : Nat
deriving DecidableEq, Repr

/-- Looks for a lexeme at the front of the text ahead. -/
abbrev Recogniser := Text → Except LexFault (Option Lexeme)

namespace Recogniser

/-- Finds a lexeme of one kind where `length` is positive. -/
def ofLength (kind : TokenKind) (length : Text → Nat) : Recogniser := fun s =>
  .ok (if length s = 0 then none else some ⟨kind, length s⟩)

/-- The first of the recognisers that finds a lexeme or a fault decides. -/
def firstOf : List Recogniser → Recogniser
  | [], _ => .ok none
  | recogniser :: others, s =>
    match recogniser s with
    | .ok none => firstOf others s
    | found => found

end Recogniser

end DiagramText
