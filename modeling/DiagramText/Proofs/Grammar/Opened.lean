import DiagramText.Proofs.Faithful
import DiagramText.Proofs.Grammar.Founds

/-!
# Where open blocks come from

Every block that is open was opened by a statement of the source, which ends
with its brace (`OpenBlock.Opened`).  The turns keep this, and that what was
read is laid out (`Session.Standing`).
-/

namespace DiagramText

open Grammar Reader

variable {source : Text} {config : Config}

namespace Grammar

/-- The statement was read at some place of the source. -/
def Statement.ReadFrom (source : Text) (read : Statement) : Prop :=
  ∃ r r' : Reader, (r.Sound ∧ r.Placed source) ∧ statement r = .ok read r'

/-- The brace with which a statement ends was read in the source. -/
theorem Statement.ReadFrom.brace {target : Target} {label : Option Label} {brace : Token}
    (h : Statement.ReadFrom source (.opening target label brace)) :
    brace.ReadFrom source .label ∧ brace.isPunct '\x7b' = true := by
  obtain ⟨r, r', ⟨hr, hplaced⟩, hread⟩ := h
  exact ((statement_founds r hr hplaced).ok hread).2.braced

/-- The label of a statement was read in the source. -/
theorem Statement.ReadFrom.label {read : Statement} (h : read.ReadFrom source) :
    ∀ label, read.label? = some label → label.ReadFrom source := by
  obtain ⟨r, r', ⟨hr, hplaced⟩, hread⟩ := h
  exact ((statement_founds r hr hplaced).ok hread).2.label

/-- A statement of the source opened the block. -/
def OpenBlock.Opened (source : Text) (block : OpenBlock) : Prop :=
  Statement.ReadFrom source (.opening block.target block.label block.brace)

theorem OpenBlock.Opened.isBrace {block : OpenBlock} (h : block.Opened source) :
    block.brace.span.IsBrace source :=
  ⟨block.brace, h.brace.1, h.brace.2, rfl⟩

/-- Items that are added leave the blocks opened as they were. -/
theorem Scopes.opened_add {scopes : Scopes} (h : ∀ block ∈ scopes.blocks, block.Opened source)
    (items : List Item) : ∀ block ∈ (scopes.add items).blocks, block.Opened source := by
  obtain ⟨top, _ | ⟨block, outer⟩⟩ := scopes
  · exact h
  · obtain ⟨hblock, houter⟩ := List.forall_mem_cons.mp h
    have hadded : OpenBlock.Opened source { block with children := block.children ++ items } := hblock
    exact List.forall_mem_cons.mpr ⟨hadded, houter⟩

/-- The blocks that stay when one is closed were opened as they were. -/
theorem Scopes.opened_pop {scopes : Scopes} (h : ∀ block ∈ scopes.blocks, block.Opened source)
    (closing : Span) : ∀ block ∈ (scopes.pop closing).blocks, block.Opened source := by
  obtain ⟨top, _ | ⟨block, outer⟩⟩ := scopes
  · exact h
  · exact opened_add (List.forall_mem_cons.mp h).2 _

/-- What was read stands in the session as it stands in the source, and each open block was opened
there. -/
structure Session.Standing (source : Text) (S : Session) : Prop where
  laid : S.Laid source
  opened : ∀ block ∈ S.scopes.blocks, block.Opened source

namespace Session.Standing

variable {S T : Session} {token : Token} {r : Reader}

theorem ofText (source : Text) : Standing source ⟨.ofText source, .empty⟩ where
  laid := ⟨logs_ofText source, .nil (Int.le_refl _), by simp [Scopes.empty], by simp [Scopes.empty]⟩
  opened := by simp [Scopes.empty]

/-- Looking ahead and placing the comments keeps it. -/
theorem settled (h : S.Standing source) (hpeek : peek .declaration S.reader = .ok token r) :
    (Grammar.settled config r S.scopes).Standing source :=
  ⟨h.laid.settled hpeek, Scopes.opened_add h.opened _⟩

/-- Each turn keeps it. -/
theorem acts {again : Bool} (h : S.Standing source) (hS : Settled S token)
    (hacts : Acts config token S again T) : T.Standing source := by
  refine ⟨h.laid.acts hS hacts, ?_⟩
  cases hacts with
  | terminator => exact h.opened
  | stop => exact h.opened
  | close => exact Scopes.opened_pop h.opened _
  | item => exact Scopes.opened_add h.opened _
  | @opening target label brace r other read allowed =>
      have hopened : OpenBlock.Opened source ⟨brace, target, label, []⟩ :=
        ⟨S.reader, r, ⟨hS.sound, h.laid.logs.placed⟩, read⟩
      exact List.forall_mem_cons.mpr ⟨hopened, h.opened⟩

end Session.Standing

end Grammar

end DiagramText
