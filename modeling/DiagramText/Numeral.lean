import DiagramText.Numeral.Binary64

/-!
# Values of numerals

The value of a numeral as written: an integer of any size, or the binary64 number nearest to a
decimal fraction. Integers are read up to a number of digits that is fixed.
-/

namespace DiagramText

/-- The value of a row of decimal digits. -/
def decimalValue (digits : Text) : Nat :=
  digits.foldl (fun value c => 10 * value + (c.toNat - '0'.toNat)) 0

namespace Numeral

/-- The most digits an integer may be written with, leading zeros counted. -/
def digitLimit : Nat := 4300

/-- Whether a numeral has a minus sign. -/
def isNegative (raw : Text) : Bool :=
  raw.head? = some '-'

/-- The numeral without its sign. -/
def unsigned : Text → Text
  | '+' :: rest => rest
  | '-' :: rest => rest
  | raw => raw

/-- The value of a row of digits, or their number where it exceeds the limit. -/
def natural (digits : Text) : Except Nat Nat :=
  if digitLimit < digits.length then .error digits.length else .ok (decimalValue digits)

/-- The value of an integer numeral, or the number of its digits where it exceeds the limit. -/
def integer (raw : Text) : Except Nat Int :=
  (natural (unsigned raw)).map fun value => if isNegative raw then -(value : Int) else value

/-- The value of a numeral with a point. -/
def fraction (raw : Text) : Binary64 :=
  let whole := (unsigned raw).takeWhile Char.isDigit
  let places := (unsigned raw).drop (whole.length + 1)
  .ofDecimal (isNegative raw) (decimalValue (whole ++ places)) places.length

/-- What is said of an integer with too many digits. -/
def limitMessage (digits : Nat) : Text :=
  "Exceeds the limit (".toList ++ Text.ofNat digitLimit ++
    " digits) for integer string conversion: value has ".toList ++ Text.ofNat digits ++
    " digits; use sys.set_int_max_str_digits() to increase the limit".toList

end Numeral

end DiagramText
