/-!
# Texts

A text is the list of its code points, so offsets, columns and lengths count list elements. This
module holds the two searches that delimited forms rest on: `Text.find?` for the leftmost
occurrence of a mark, and `Text.findUnescaped?` for the leftmost one that no backslash precedes.
`Text.substitute` is the one pass from left to right that puts new text for old.
-/

namespace DiagramText

/-- A text, code point by code point. -/
abbrev Text := List Char

namespace Text

/-- Length of the longest stretch at the front whose characters all satisfy `p`. -/
def run (p : Char → Bool) (s : Text) : Nat :=
  (s.takeWhile p).length

/-- How many bytes the text takes in UTF-8. -/
def utf8Length (s : Text) : Nat :=
  s.foldl (fun length c => length + c.utf8Size) 0

/-- Offset of the leftmost occurrence of `mark`. -/
def find? (mark : Text) : Text → Option Nat
  | [] => if mark.isEmpty then some 0 else none
  | c :: rest => if mark.isPrefixOf (c :: rest) then some 0 else (find? mark rest).map (· + 1)

/-- Offset of the leftmost occurrence of `mark` that is not directly preceded by a backslash;
`escaped` tells whether a backslash stands right before the text. -/
def findUnescaped? (mark : Text) (escaped : Bool) : Text → Option Nat
  | [] => none
  | c :: rest =>
    if !escaped && mark.isPrefixOf (c :: rest) then some 0
    else (findUnescaped? mark (c == '\\') rest).map (· + 1)

/-- The part between two offsets. A negative offset counts from the end. -/
def slice (s : Text) (start stop : Int) : Text :=
  let place (offset : Int) : Nat := (if offset < 0 then offset + s.length else offset).toNat
  (s.take (place stop)).drop (place start)

/-- Goes through a text once `passed` characters are left out. Where the rule gives a length and a
text, that text stands for as many of the characters ahead; all else stays. -/
def substituteAfter (rule : Text → Option (Nat × Text)) : (passed : Nat) → Text → Text
  | _, [] => []
  | passed + 1, _ :: rest => substituteAfter rule passed rest
  | 0, c :: rest =>
    match rule (c :: rest) with
    | some (length, new) => new ++ substituteAfter rule (length - 1) rest
    | none => c :: substituteAfter rule 0 rest

/-- Puts the text that the rule gives for as many of the characters ahead as it says, at least
one, from left to right. What was put in is not looked at again. -/
def substitute (rule : Text → Option (Nat × Text)) (s : Text) : Text :=
  substituteAfter rule 0 s

/-- A rule that applies nowhere leaves the text as it is. -/
theorem substitute_eq_self {rule : Text → Option (Nat × Text)} {s : Text}
    (h : ∀ ahead, ahead <:+ s → rule ahead = none) : s.substitute rule = s := by
  induction s with
  | nil => rfl
  | cons c rest ih =>
    have here := h (c :: rest) (List.suffix_refl _)
    have later := ih fun ahead suffix => h ahead (suffix.trans (List.suffix_cons c rest))
    simp only [substitute] at later
    simp only [substitute, substituteAfter, here, later]

/-- Writes `new` for every occurrence of `old`, from left to right. The empty text occurs before
every character and at the end. -/
def replace (s old new : Text) : Text :=
  if old.isEmpty then new ++ s.flatMap (· :: new)
  else s.substitute fun ahead =>
    if old.isPrefixOf ahead then some (old.length, new) else none

/-- The parts with `mark` between each two of them. -/
def join (mark : Text) (parts : List Text) : Text :=
  mark.intercalate parts

/-- The decimal text of a natural number. -/
def ofNat (n : Nat) : Text :=
  Nat.toDigits 10 n

/-- The decimal text of an integer, with a sign only when it is negative. -/
def ofInt : Int → Text
  | .ofNat n => ofNat n
  | .negSucc n => '-' :: ofNat (n + 1)

/-- The lower-case hexadecimal text of a number, filled up with zeros to `width` digits. -/
def hex (width n : Nat) : Text :=
  let digits := Nat.toDigits 16 n
  List.replicate (width - digits.length) '0' ++ digits

end Text

end DiagramText
