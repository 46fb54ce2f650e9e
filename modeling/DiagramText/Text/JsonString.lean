import DiagramText.Text.Basic

/-!
# JSON strings

A text as a JSON string. `Text.json` escapes only what the format requires; `Text.asciiJson`
also writes everything outside printable ASCII by its UTF-16 units.
-/

namespace DiagramText.Text

/-- The escape of a character by the number of one UTF-16 unit. -/
def unitEscape (n : Nat) : Text :=
  '\\' :: 'u' :: hex 4 n

/-- The short escape of a character that has one. -/
def shortEscape? (c : Char) : Option Text :=
  if c = '\x22' then some ['\\', '\x22']
  else if c = '\\' then some ['\\', '\\']
  else if c = '\n' then some ['\\', 'n']
  else if c = '\r' then some ['\\', 'r']
  else if c = '\t' then some ['\\', 't']
  else if c = '\x08' then some ['\\', 'b']
  else if c = '\x0c' then some ['\\', 'f']
  else none

/-- A character inside a JSON string: quotes, backslashes and controls are escaped. -/
def jsonChar (c : Char) : Text :=
  match shortEscape? c with
  | some escape => escape
  | none => if c.toNat < 0x20 then unitEscape c.toNat else [c]

/-- A character inside a JSON string of printable ASCII only; beyond the basic plane it takes a
surrogate pair. -/
def asciiJsonChar (c : Char) : Text :=
  match shortEscape? c with
  | some escape => escape
  | none =>
    if 0x20 ≤ c.toNat ∧ c.toNat < 0x7f then [c]
    else if c.toNat < 0x10000 then unitEscape c.toNat
    else
      let n := c.toNat - 0x10000
      unitEscape (0xd800 + n / 0x400) ++ unitEscape (0xdc00 + n % 0x400)

/-- The text as a JSON string. -/
def json (s : Text) : Text :=
  '\x22' :: s.flatMap jsonChar ++ ['\x22']

/-- The text as a JSON string of printable ASCII only. -/
def asciiJson (s : Text) : Text :=
  '\x22' :: s.flatMap asciiJsonChar ++ ['\x22']

end DiagramText.Text
