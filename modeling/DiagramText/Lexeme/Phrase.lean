import DiagramText.Lexeme.Mark
import DiagramText.Text.Character

/-!
# Names and label texts

Names and label texts are phrases: elements in a row, with gaps between some of them. A gap
belongs to the phrase only when another element follows it, so a phrase begins and ends with an
element. A backslash makes an element of a character that could not be one itself.
-/

namespace DiagramText

/-- What the elements and gaps of a phrase are. -/
structure Phrase where
  /-- Characters that are elements as they stand. -/
  isBody : Char → Bool
  /-- Characters that a backslash makes elements of. -/
  isEscapable : Char → Bool
  /-- Characters that may stand between two elements. -/
  isGap : Char → Bool
  /-- Texts at whose front no element may begin, whatever its character. -/
  isBarred : Text → Bool

namespace Phrase

variable (p : Phrase)

/-- Whether an element begins at the front. -/
def beginsAt : Text → Bool
  | [] => false
  | c :: rest =>
    (c == '\\' && rest.head?.any p.isEscapable) || (p.isBody c && !p.isBarred (c :: rest))

/-- Length of the elements ahead and the gaps between them, after a gap of `pending` characters
that is counted only once an element follows. -/
def extent (pending : Nat) : Text → Nat
  | [] => 0
  | [c] => if p.isBody c && !p.isBarred [c] then pending + 1 else 0
  | c :: d :: rest =>
    if c == '\\' && p.isEscapable d then pending + 2 + extent 0 rest
    else if p.isBody c && !p.isBarred (c :: d :: rest) then pending + 1 + extent 0 (d :: rest)
    else if p.isGap c then extent (pending + 1) (d :: rest)
    else 0

/-- Length of the phrase at the front. -/
def length (s : Text) : Nat :=
  if p.beginsAt s then p.extent 0 s else 0

end Phrase

/-- A name: word characters, slashes, stars, plus signs and dashes, blanks and commas and
apostrophes inside it, and no connection anywhere in it. -/
def namePhrase : Phrase where
  isBody c := isWord c || ['/', '*', '+', '-'].contains c
  isEscapable c := c == '#'
  isGap c := isInlineBlank c || ['\x27', ','].contains c
  isBarred s := 0 < connectionLength s

/-- A label text, which may also hold much of the punctuation. -/
def labelPhrase : Phrase where
  isBody c := isWord c ||
    ['/', '*', '+', '-', '(', ')', '\\', ':', '.', '%', '&', '?', '\x27', ','].contains c
  isEscapable c := c == '#' || c == '\x7b'
  isGap c := isInlineBlank c
  isBarred _ := false

end DiagramText
