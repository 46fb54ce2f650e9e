import DiagramText.Lexeme.CodeBlock
import DiagramText.Lexeme.Literal
import DiagramText.Lexeme.Phrase

/-!
# Scanning

For each mode, what it skips and which lexemes it looks for, in order. `Mode.scan` finds the
lexeme at the front of a text from that text alone.
-/

namespace DiagramText.Mode

/-- The characters a mode skips before a token: blanks of the line in the line modes, all blanks
inside lists. -/
def skips : Mode → Char → Bool
  | .declaration, c => isInlineBlank c
  | .label, c => isInlineBlank c
  | .arguments, c => isBlank c
  | .constraints, c => isBlank c

/-- What statements and labels have in common, up to their quoted texts. -/
def shared (marks : List QuoteMark) : List Recogniser :=
  [.ofLength .terminator terminatorLength, lineComment, blockComment, quotedText marks,
   .ofLength .importRef importLength]

/-- The lexemes of a mode, in the order in which they are looked for. -/
def recognisers : Mode → List Recogniser
  | .declaration =>
    shared [.double, .single] ++
      [.ofLength .connection connectionLength,
       punctuation ['\x7b', '\x7d', '(', ')', ':', '.', '[', ']'],
       .ofLength .ident namePhrase.length]
  | .label =>
    shared [.double] ++
      [punctuation ['\x7b', '\x7d', '['],
       codeBlock,
       .ofLength .number (literalLength numeralLength),
       .ofLength .boolean (literalLength booleanLength),
       .ofLength .text labelPhrase.length]
  | .arguments =>
    [lineComment, punctuation ['(', ')', ',', ':'],
     word fun c => isPlainWord c || c == '[' || c == ']']
  | .constraints =>
    [lineComment, punctuation ['[', ']', ';'], word isPlainWord]

/-- The lexeme at the front of the text ahead, none of which the mode would skip. -/
def scan (mode : Mode) : Text → Except LexFault Lexeme
  | [] => .ok ⟨.eof, 0⟩
  | c :: rest =>
    match Recogniser.firstOf mode.recognisers (c :: rest) with
    | .ok (some lexeme) => .ok lexeme
    | .ok none => .error (.unexpectedCharacter c)
    | .error fault => .error fault

end DiagramText.Mode
