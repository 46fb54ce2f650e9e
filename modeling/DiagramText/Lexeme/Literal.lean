import DiagramText.Lexeme.Basic
import DiagramText.Text.Character

/-!
# Numbers and booleans

A numeral is a sign or none, digits, and perhaps a point with more digits. Numerals and booleans
are literals of a label only where a blank, a semicolon or the end of the source follows them.
-/

namespace DiagramText

/-- Length of a fraction at the front: a point and at least one digit. -/
def fractionLength : Text → Nat
  | '.' :: rest =>
    let digits := Text.run Char.isDigit rest
    if digits = 0 then 0 else digits + 1
  | _ => 0

/-- Length of a numeral without a sign at the front. -/
def unsignedLength (s : Text) : Nat :=
  let digits := Text.run Char.isDigit s
  if digits = 0 then 0 else digits + fractionLength (s.drop digits)

/-- Length of a numeral at the front. -/
def numeralLength : Text → Nat
  | c :: rest =>
    if c = '+' ∨ c = '-' then
      let digits := unsignedLength rest
      if digits = 0 then 0 else digits + 1
    else unsignedLength (c :: rest)
  | [] => 0

/-- Length of a boolean at the front. -/
def booleanLength (s : Text) : Nat :=
  if "true".toList.isPrefixOf s then 4 else if "false".toList.isPrefixOf s then 5 else 0

/-- Whether a literal may end before this text. -/
def isLiteralEnd : Text → Bool
  | [] => true
  | c :: _ => isBlank c || c == ';'

/-- The length found, if a literal may end there. -/
def literalLength (length : Text → Nat) (s : Text) : Nat :=
  if isLiteralEnd (s.drop (length s)) then length s else 0

/-- Whether a text, taken whole, reads as a number or a boolean. -/
def readsAsLiteral (s : Text) : Bool :=
  s ≠ [] && (numeralLength s == s.length || booleanLength s == s.length)

end DiagramText
