import DiagramText.Lexeme.Basic
import DiagramText.Text.Character
import DiagramText.Text.Quoted

/-!
# Marks, comments and quoted forms

The recognisers that both statements and labels use: terminators, comments, imports, quoted texts
and punctuation, and the connections between names.
-/

namespace DiagramText

/-- Length of a line break or semicolon at the front. -/
def terminatorLength : Text → Nat
  | ';' :: _ => 1
  | s => breakLength s

/-- Length of a line comment at the front, with the break that ends it. -/
def commentLength : Text → Nat
  | '#' :: rest =>
    let body := Text.run (!isBreak ·) rest
    1 + body + breakLength (rest.drop body)
  | _ => 0

/-- Length of an import at the front: the at sign, after three dots if it is spread, and a path
without blanks. -/
def importLength : Text → Nat
  | '.' :: '.' :: '.' :: '@' :: rest =>
    let path := Text.run (!isBlank ·) rest
    if path = 0 then 0 else 4 + path
  | '@' :: rest =>
    let path := Text.run (!isBlank ·) rest
    if path = 0 then 0 else 1 + path
  | _ => 0

/-- Length of a connection at the front: dashes with an arrowhead at one end or both, or at least
two dashes without any. -/
def connectionLength : Text → Nat
  | '<' :: rest =>
    let dashes := Text.run (· == '-') rest
    if dashes = 0 then 0
    else if (rest.drop dashes).head? = some '>' then dashes + 2
    else dashes + 1
  | '-' :: rest =>
    let dashes := Text.run (· == '-') rest + 1
    if (('-' :: rest).drop dashes).head? = some '>' then dashes + 1
    else if dashes = 1 then 0
    else dashes
  | _ => 0

/-- A line comment. -/
def lineComment : Recogniser :=
  .ofLength .comment commentLength

/-- What a block comment stands between. -/
def commentFence : Text :=
  ['\x22', '\x22', '\x22']

/-- A block comment: from one triple quote to the next one that no backslash precedes. -/
def blockComment : Recogniser := fun s =>
  if commentFence.isPrefixOf s then
    match Text.findUnescaped? commentFence false (s.drop 3) with
    | some body => .ok (some ⟨.blockComment, 3 + body + 3⟩)
    | none => .error .unterminatedComment
  else .ok none

/-- A quoted text: one of the marks, what may stand in front of an equal one, and that one. -/
def quotedText (marks : List QuoteMark) : Recogniser
  | [] => .ok none
  | c :: rest =>
    if marks.any (·.char == c) then
      match Text.quotedBody? c rest with
      | some body => .ok (some ⟨.quoted, 1 + body + 1⟩)
      | none => .error .unterminatedString
    else .ok none

/-- One character of punctuation. -/
def punctuation (marks : List Char) : Recogniser :=
  .ofLength .punct fun
    | c :: _ => if marks.contains c then 1 else 0
    | [] => 0

/-- A word whose characters all satisfy `p`. -/
def word (p : Char → Bool) : Recogniser :=
  .ofLength .ident (Text.run p)

end DiagramText
