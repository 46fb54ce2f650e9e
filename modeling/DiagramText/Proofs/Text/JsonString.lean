import DiagramText.Text.JsonString
import Mathlib.Data.List.Basic
import Mathlib.Data.Nat.Digits.Defs

/-!
# Reading JSON strings

A JSON string is a row of UTF-16 units: a character stands for its own units, a letter behind a
backslash for those of a control character, and four hexadecimal digits for any one unit.  The
reader takes the units up to the closing quote (`jsonUnits?`) and puts surrogate pairs together
(`ofUtf16?`).  It reads back what `json` and `asciiJson` write, whatever follows the string
(`jsonString?_json`, `jsonString?_asciiJson`).
-/

namespace DiagramText.Text

/-! ## UTF-16 -/

/-- The UTF-16 units of a character: itself, or a surrogate pair beyond the basic plane. -/
def utf16 (c : Char) : List Nat :=
  if c.toNat < 0x10000 then [c.toNat]
  else [0xd800 + (c.toNat - 0x10000) / 0x400, 0xdc00 + (c.toNat - 0x10000) % 0x400]

/-- The text of UTF-16 units, each high surrogate with the low one behind it. -/
def ofUtf16? : List Nat → Option Text
  | [] => some []
  | unit :: units =>
    if 0xd800 ≤ unit ∧ unit < 0xdc00 then
      match units with
      | [] => none
      | low :: others =>
        if 0xdc00 ≤ low ∧ low < 0xe000 then
          (ofUtf16? others).map
            (Char.ofNat (0x10000 + (unit - 0xd800) * 0x400 + (low - 0xdc00)) :: ·)
        else none
    else if 0xdc00 ≤ unit ∧ unit < 0xe000 then none
    else (ofUtf16? units).map (Char.ofNat unit :: ·)

/-- No character is a surrogate. -/
theorem toNat_valid (c : Char) : c.toNat < 0xd800 ∨ 0xdfff < c.toNat ∧ c.toNat < 0x110000 :=
  c.valid

/-- The units of a character are put together again, whatever follows. -/
theorem ofUtf16?_utf16 (c : Char) (units : List Nat) :
    ofUtf16? (utf16 c ++ units) = (ofUtf16? units).map (c :: ·) := by
  have valid := toNat_valid c
  by_cases basic : c.toNat < 0x10000
  · have hhigh : ¬ (0xd800 ≤ c.toNat ∧ c.toNat < 0xdc00) := by omega
    have hlow : ¬ (0xdc00 ≤ c.toNat ∧ c.toNat < 0xe000) := by omega
    rw [utf16, if_pos basic, List.singleton_append, ofUtf16?.eq_def]
    simp only [if_neg hhigh, if_neg hlow, Char.ofNat_toNat]
  · -- The number beyond the basic plane has two halves of ten bits, one in each surrogate.
    obtain ⟨n, hn, hc⟩ : ∃ n, n < 0x100000 ∧ c.toNat = 0x10000 + n :=
      ⟨c.toNat - 0x10000, by omega, by omega⟩
    have hhigh : 0xd800 ≤ 0xd800 + n / 0x400 ∧ 0xd800 + n / 0x400 < 0xdc00 := by omega
    have hlow : 0xdc00 ≤ 0xdc00 + n % 0x400 ∧ 0xdc00 + n % 0x400 < 0xe000 := by omega
    have hsum : 0x10000 + (0xd800 + n / 0x400 - 0xd800) * 0x400 +
        (0xdc00 + n % 0x400 - 0xdc00) = c.toNat := by omega
    have hrest : c.toNat - 0x10000 = n := by omega
    rw [utf16, if_neg basic, hrest, List.cons_append, List.singleton_append,
      ofUtf16?.eq_def]
    simp only [if_pos hhigh, if_pos hlow, hsum, Char.ofNat_toNat]

/-- The units of a text are its own. -/
theorem ofUtf16?_flatMap (s : Text) : ofUtf16? (s.flatMap utf16) = some s := by
  induction s with
  | nil => rfl
  | cons c rest ih => rw [List.flatMap_cons, ofUtf16?_utf16, ih, Option.map_some]

/-! ## Hexadecimal numbers -/

/-- The value of a hexadecimal digit of either case. -/
def hexValue? (c : Char) : Option Nat :=
  if '0' ≤ c ∧ c ≤ '9' then some (c.toNat - '0'.toNat)
  else if 'a' ≤ c ∧ c ≤ 'f' then some (c.toNat - 'a'.toNat + 10)
  else if 'A' ≤ c ∧ c ≤ 'F' then some (c.toNat - 'A'.toNat + 10)
  else none

/-- The number that hexadecimal digits write. -/
def ofHex? (digits : Text) : Option Nat :=
  digits.foldlM (fun n c => (hexValue? c).map (n * 16 + ·)) 0

/-- A hexadecimal digit has the value that it is written for. -/
theorem hexValue?_digitChar {n : Nat} (h : n < 16) : hexValue? n.digitChar = some n := by
  have : ∀ n < 16, hexValue? n.digitChar = some n := by decide
  exact this n h

/-- One more digit multiplies the value by sixteen and adds its own. -/
theorem ofHex?_concat (digits : Text) {n : Nat} (h : n < 16) :
    ofHex? (digits ++ [n.digitChar]) = (ofHex? digits).map (· * 16 + n) := by
  unfold ofHex?
  rw [List.foldlM_append]
  cases List.foldlM (fun n c => (hexValue? c).map (n * 16 + ·)) 0 digits with
  | none => rfl
  | some m => simp [hexValue?_digitChar h]

/-- The digits of a number write that number. -/
theorem ofHex?_toDigits (n : Nat) : ofHex? (Nat.toDigits 16 n) = some n := by
  induction n using Nat.strongRecOn with
  | ind n ih =>
    by_cases small : n < 16
    · rw [Nat.toDigits_of_lt_base small]
      exact (ofHex?_concat [] small).trans (by simp [ofHex?])
    · rw [Nat.toDigits_of_base_le (by decide) (by omega),
        ofHex?_concat _ (Nat.mod_lt n (by decide)), ih (n / 16) (by omega), Option.map_some]
      exact congrArg some (by omega)

/-- Zeros in front do not change the value. -/
theorem ofHex?_zeros (count : Nat) (digits : Text) :
    ofHex? (List.replicate count '0' ++ digits) = ofHex? digits := by
  induction count with
  | zero => rfl
  | succ count ih => exact ih

/-- Digits that are filled up with zeros write the same number. -/
theorem ofHex?_hex (width n : Nat) : ofHex? (hex width n) = some n :=
  (ofHex?_zeros _ _).trans (ofHex?_toDigits n)

/-- A number that fits fills up the width exactly. -/
theorem hex_length {width n : Nat} (hwidth : 0 < width) (h : n < 16 ^ width) :
    (hex width n).length = width := by
  have := (Nat.length_toDigits_le_iff (b := 16) (by decide) hwidth).mpr h
  simp only [hex, List.length_append, List.length_replicate]
  omega

/-! ## The reader -/

/-- The character that a letter stands for behind a backslash. -/
def escaped? (letter : Char) : Option Char :=
  if letter = '\x22' ∨ letter = '\\' ∨ letter = '/' then some letter
  else if letter = 'b' then some '\x08'
  else if letter = 'f' then some '\x0c'
  else if letter = 'n' then some '\n'
  else if letter = 'r' then some '\r'
  else if letter = 't' then some '\t'
  else none

/-- Units in front of those that were read. -/
def prepend (units : List Nat) (read : List Nat × Text) : List Nat × Text :=
  (units ++ read.1, read.2)

/-- The units of a JSON string from behind its opening quote, and what follows its closing quote.
A control character does not stand in a string. -/
def jsonUnits? : Text → Option (List Nat × Text)
  | [] => none
  | '\x22' :: rest => some ([], rest)
  | '\\' :: 'u' :: a :: b :: c :: d :: rest =>
    (ofHex? [a, b, c, d]).bind fun unit => (jsonUnits? rest).map (prepend [unit])
  | '\\' :: letter :: rest =>
    (escaped? letter).bind fun c => (jsonUnits? rest).map (prepend (utf16 c))
  | c :: rest =>
    if c.toNat < 0x20 then none else (jsonUnits? rest).map (prepend (utf16 c))

/-- The text of a JSON string from behind its opening quote, and what follows its closing
quote. -/
def jsonString? (s : Text) : Option (Text × Text) :=
  (jsonUnits? s).bind fun (units, rest) => (ofUtf16? units).map (·, rest)

/-- What is prepended does not change how much is left. -/
private theorem length_lt_of_prepend {ahead rest : Text} {front units : List Nat}
    (hahead : ∀ units, jsonUnits? ahead = some (units, rest) → rest.length < ahead.length)
    (h : (jsonUnits? ahead).map (prepend front) = some (units, rest)) :
    rest.length < ahead.length := by
  obtain ⟨⟨read, after⟩, hread, heq⟩ := Option.map_eq_some_iff.mp h
  cases heq
  exact hahead read hread

/-- What follows the closing quote is shorter than all that was read. -/
theorem length_lt_of_jsonUnits? {s rest : Text} :
    ∀ units, jsonUnits? s = some (units, rest) → rest.length < s.length := by
  fun_induction jsonUnits? s with
  | case1 => nofun
  | case2 ahead =>
    intro units h
    cases h
    exact Nat.lt_succ_self _
  | case3 a b c d ahead ih =>
    intro units h
    obtain ⟨unit, -, hread⟩ := Option.bind_eq_some_iff.mp h
    exact (length_lt_of_prepend ih hread).trans (by simp only [List.length_cons]; omega)
  | case4 letter ahead _ ih =>
    intro units h
    obtain ⟨c, -, hread⟩ := Option.bind_eq_some_iff.mp h
    exact (length_lt_of_prepend ih hread).trans (by simp only [List.length_cons]; omega)
  | case5 => nofun
  | case6 c ahead _ _ _ _ ih =>
    intro units h
    exact (length_lt_of_prepend ih h).trans (Nat.lt_succ_self _)

/-- Reading a string consumes something. -/
theorem length_lt_of_jsonString? {s text rest : Text}
    (h : jsonString? s = some (text, rest)) : rest.length < s.length := by
  obtain ⟨⟨units, after⟩, hread, htext⟩ := Option.bind_eq_some_iff.mp h
  obtain ⟨_, -, heq⟩ := Option.map_eq_some_iff.mp htext
  cases heq
  exact length_lt_of_jsonUnits? units hread

/-! ## Written strings -/

/-- The reader takes the written units, whatever follows them. -/
def Writes (written : Text) (units : List Nat) : Prop :=
  ∀ rest, jsonUnits? (written ++ rest) = (jsonUnits? rest).map (prepend units)

/-- Four digits behind a backslash write their unit. -/
theorem writes_unitEscape {n : Nat} (h : n < 0x10000) : Writes (unitEscape n) [n] := by
  intro rest
  obtain ⟨a, b, c, d, hdigits⟩ : ∃ a b c d, hex 4 n = [a, b, c, d] := by
    have hlength : (hex 4 n).length = 4 := hex_length (by decide) h
    match hex 4 n, hlength with
    | [a, b, c, d], _ => exact ⟨a, b, c, d, rfl⟩
  have hread : ofHex? [a, b, c, d] = some n := hdigits ▸ ofHex?_hex 4 n
  rw [unitEscape, hdigits]
  simp only [List.cons_append, List.nil_append, jsonUnits?, hread, Option.bind_some]

/-- One text behind the other writes the units of both. -/
theorem writes_append {first second : Text} {units others : List Nat}
    (hfirst : Writes first units) (hsecond : Writes second others) :
    Writes (first ++ second) (units ++ others) := by
  intro rest
  rw [List.append_assoc, hfirst, hsecond, Option.map_map]
  congr 1
  funext read
  simp [prepend]

/-- A letter behind a backslash writes the units of its character. -/
theorem writes_escape {letter c : Char} (hletter : letter ≠ 'u')
    (h : escaped? letter = some c) : Writes ['\\', letter] (utf16 c) := by
  intro rest
  rw [List.cons_append, List.singleton_append, jsonUnits?, h, Option.bind_some]
  intro _ _ _ _ _ heq
  exact absurd heq hletter

/-- A short escape writes the units of its character. -/
theorem writes_shortEscape {c : Char} {escape : Text} (h : shortEscape? c = some escape) :
    Writes escape (utf16 c) := by
  have hletter : ∃ letter, escape = ['\\', letter] ∧ letter ≠ 'u' ∧ escaped? letter = some c := by
    unfold shortEscape? at h
    split_ifs at h with h₁ h₂ h₃ h₄ h₅ h₆ h₇
    all_goals
      subst c
      exact ⟨_, (Option.some.inj h).symm, by decide, by decide⟩
  obtain ⟨letter, rfl, hu, hread⟩ := hletter
  exact writes_escape hu hread

/-- A character that needs no escape writes its own units. -/
theorem writes_self {c : Char} (hquote : c ≠ '\x22') (hslash : c ≠ '\\') (h : ¬ c.toNat < 0x20) :
    Writes [c] (utf16 c) := by
  intro rest
  rw [List.singleton_append, jsonUnits?]
  · rw [if_neg h]
  · intro heq; exact hquote heq
  · intro _ _ _ _ _ heq; exact absurd heq hslash
  · intro _ _ heq; exact absurd heq hslash

/-- A quote and a backslash have short escapes. -/
theorem ne_of_shortEscape?_eq_none {c : Char} (h : shortEscape? c = none) :
    c ≠ '\x22' ∧ c ≠ '\\' := by
  grind [shortEscape?]

/-- Each character of a JSON string writes its units. -/
theorem writes_jsonChar (c : Char) : Writes (jsonChar c) (utf16 c) := by
  unfold jsonChar
  split
  next escape h => exact writes_shortEscape h
  next h =>
    have ⟨hquote, hslash⟩ := ne_of_shortEscape?_eq_none h
    split
    next control =>
      have hunits : utf16 c = [c.toNat] := if_pos (by omega)
      exact hunits ▸ writes_unitEscape (by omega)
    next printed => exact writes_self hquote hslash printed

/-- Each character of an ASCII JSON string writes its units. -/
theorem writes_asciiJsonChar (c : Char) : Writes (asciiJsonChar c) (utf16 c) := by
  unfold asciiJsonChar
  split
  next escape h => exact writes_shortEscape h
  next h =>
    have ⟨hquote, hslash⟩ := ne_of_shortEscape?_eq_none h
    split
    next printed => exact writes_self hquote hslash (by omega)
    next =>
      split
      next basic =>
        have hunits : utf16 c = [c.toNat] := if_pos basic
        exact hunits ▸ writes_unitEscape basic
      next beyond =>
        have valid := toNat_valid c
        rw [utf16, if_neg beyond]
        exact writes_append (writes_unitEscape (by omega)) (writes_unitEscape (by omega))

/-- Where each character writes its units, so does the text. -/
theorem writes_flatMap {written : Char → Text} (h : ∀ c, Writes (written c) (utf16 c)) (s : Text) :
    Writes (s.flatMap written) (s.flatMap utf16) := by
  induction s with
  | nil =>
    intro rest
    exact (Option.map_id_apply).symm
  | cons c rest ih => exact writes_append (h c) ih

/-- A string written character by character is read back up to its closing quote. -/
theorem jsonString?_flatMap {written : Char → Text} (h : ∀ c, Writes (written c) (utf16 c))
    (s rest : Text) : jsonString? (s.flatMap written ++ '\x22' :: rest) = some (s, rest) := by
  rw [jsonString?, writes_flatMap h s, jsonUnits?]
  simp [prepend, ofUtf16?_flatMap]

end DiagramText.Text
