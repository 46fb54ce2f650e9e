import DiagramText.Text.Basic

/-!
# Control sequences

A control sequence tells a terminal how to show what follows: an escape and an opening bracket,
then parameters, then intermediate characters, then one final character. `Text.plain` leaves them
out of a text. A text without an escape has none (`plain_eq_self`).
-/

namespace DiagramText.Text

/-- Whether the character stands for a parameter of a control sequence. -/
def isParameter (c : Char) : Bool :=
  0x30 ≤ c.toNat && c.toNat ≤ 0x3f

/-- Whether the character may stand between the parameters and the end of a control sequence. -/
def isIntermediate (c : Char) : Bool :=
  0x20 ≤ c.toNat && c.toNat ≤ 0x2f

/-- Whether the character ends a control sequence. -/
def isFinal (c : Char) : Bool :=
  0x40 ≤ c.toNat && c.toNat ≤ 0x7e

/-- Length of the control sequence at the front, if one stands there. -/
def controlLength? : Text → Option Nat
  | '\x1b' :: '[' :: rest =>
    let parameters := run isParameter rest
    let intermediates := run isIntermediate (rest.drop parameters)
    match rest.drop (parameters + intermediates) with
    | c :: _ => if isFinal c then some (parameters + intermediates + 3) else none
    | [] => none
  | _ => none

/-- The text without its control sequences. -/
def plain (s : Text) : Text :=
  s.substitute fun ahead => (controlLength? ahead).map (·, [])

/-- A control sequence begins with an escape. -/
theorem head?_of_controlLength? {s : Text} {n : Nat} (h : controlLength? s = some n) :
    s.head? = some '\x1b' := by
  unfold controlLength? at h
  split at h
  · rfl
  · contradiction

/-- A text without an escape is plain. -/
theorem plain_eq_self {s : Text} (h : '\x1b' ∉ s) : s.plain = s := by
  refine substitute_eq_self fun ahead suffix => ?_
  match length : controlLength? ahead with
  | none => rfl
  | some n =>
    have first := List.mem_of_head? (head?_of_controlLength? length)
    exact absurd (suffix.subset first) h

end DiagramText.Text
