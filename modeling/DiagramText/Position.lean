import DiagramText.Text.Basic

/-!
# Positions and spans

A position is an offset with the line and column it stands at, both counted from one. A line ends
with a line feed, a carriage return, or the two together; a carriage return before its line feed
still belongs to the line. A span is a stretch of the source with the line and column of its
start. Positions count from the front of a source and have no negative fields; spans are given in
integers, so that every four numbers make one.
-/

namespace DiagramText

/-- A place in a source. -/
structure Position where
  offset : Nat
  line : Nat
  column : Nat
deriving DecidableEq, Repr

namespace Position

/-- The place before the first character. -/
def start : Position := ⟨0, 1, 1⟩

/-- The place after `c`, when `rest` follows it. -/
def step (p : Position) (c : Char) (rest : Text) : Position :=
  if c = '\n' ∨ (c = '\r' ∧ rest.head? ≠ some '\n') then ⟨p.offset + 1, p.line + 1, 1⟩
  else ⟨p.offset + 1, p.line, p.column + 1⟩

/-- The place `count` characters on, with the given text ahead. Beyond the end of the text the
column keeps growing. -/
def advance (p : Position) : (count : Nat) → Text → Position
  | 0, _ => p
  | count + 1, [] => ⟨p.offset + (count + 1), p.line, p.column + (count + 1)⟩
  | count + 1, c :: rest => (p.step c rest).advance count rest

/-- The place of an offset of the source. -/
def ofOffset (source : Text) (offset : Nat) : Position :=
  start.advance offset source

theorem offset_step (p : Position) (c : Char) (rest : Text) : (p.step c rest).offset = p.offset + 1 := by
  unfold step
  split <;> rfl

theorem offset_advance (p : Position) (count : Nat) (s : Text) :
    (p.advance count s).offset = p.offset + count := by
  induction count generalizing p s with
  | zero => rfl
  | succ count ih =>
      cases s with
      | nil => rfl
      | cons c s =>
          rw [advance, ih, offset_step]
          omega

/-- Advancing in two steps is advancing at once. -/
theorem advance_advance (p : Position) (count further : Nat) (s : Text) :
    (p.advance count s).advance further (s.drop count) = p.advance (count + further) s := by
  induction count generalizing p s with
  | zero => rw [advance, List.drop_zero, Nat.zero_add]
  | succ count ih =>
      cases s with
      | nil =>
          cases further with
          | zero => rfl
          | succ further =>
              have hsum : count + 1 + (further + 1) = count + further + 1 + 1 := by omega
              rw [List.drop_nil, hsum, advance, advance, advance]
              simp only [mk.injEq, true_and]
              omega
      | cons c s =>
          rw [advance, List.drop_succ_cons, ih, Nat.add_right_comm, advance]

@[simp] theorem offset_ofOffset (source : Text) (offset : Nat) :
    (ofOffset source offset).offset = offset := by
  rw [ofOffset, offset_advance]
  exact Nat.zero_add offset

end Position

/-- A stretch of a source, from `start` up to and without `stop`, with the line and column of its
start. -/
structure Span where
  start : Int
  stop : Int
  line : Int
  column : Int
deriving DecidableEq, Repr

namespace Span

/-- The span of what no source was read for. -/
def nowhere : Span := ⟨0, 0, 1, 1⟩

/-- The span from a place up to the offset `stop`. -/
def upTo (p : Position) (stop : Int) : Span :=
  ⟨p.offset, stop, p.line, p.column⟩

/-- The span between two offsets of the source. -/
def ofOffsets (source : Text) (start : Nat) (stop : Int) : Span :=
  upTo (Position.ofOffset source start) stop

/-- From the start of the one span to the end of the other, or to its own end if that is later. -/
def cover (a b : Span) : Span :=
  { a with stop := max a.stop b.stop }

end Span

end DiagramText
