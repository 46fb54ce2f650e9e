import DiagramText.Proofs.Grammar.Steps
import DiagramText.Proofs.Lexeme.Shape
import DiagramText.Tree.Walk

/-!
# Trees that are read are well-formed

A tree that a source is read to keeps promises that its types do not make: each
name, connection, label and list of arguments looks as the scans allow, and the
parts of a declaration exclude one another as the grammar has it
(`Node.WellFormed`).  `Document.ofText_wellFormed` says so of every node of every
tree.  What the grammar reads is written (`Item.Written`), each part of what is
written is written (`Node.Written.children`), and a written node is well-formed.
-/

namespace DiagramText

open Grammar

/-! ## What is promised -/

/-- The fields have no fields, and the name looks as its quotation marks, or their absence, want
it. -/
structure Identifier.WellFormed (identifier : Identifier) : Prop where
  fields : ∀ field ∈ identifier.fields, field.fields = []
  bare : identifier.quote = none → identifier.name.IsBareName
  quoted : identifier.quote ≠ none → identifier.name.getLast? ≠ some '\\'

/-- Code has a language and text that does not go on with its name, a free text stands for itself,
a quoted text is the quoted value, and constraints are words, at least one. -/
def Label.WellFormed : Label → Prop
  | .code parts _ =>
    (parts.language ≠ [] ∧ parts.language.all Char.isAlphanum = true) ∧
      parts.content.Begins fun c => c.isAlphanum = false
  | .scalar (.text value) raw _ => value = raw ∧ raw.IsFreeText
  | .scalar (.quoted value) raw _ => raw = value.quote QuoteMark.double.text
  | .scalar _ _ _ => True
  | .constraints names _ =>
    names ≠ [] ∧ ∀ name ∈ names, name ≠ [] ∧ name.all isPlainWord = true

/-- All of the arguments have types, or none has. -/
def Argument.Alike (arguments : List Argument) : Prop :=
  (∀ argument ∈ arguments, argument.type = none) ∨ ∀ argument ∈ arguments, argument.type ≠ none

/-- Whatever the declaration is given, it is given after a colon, and an import is all it is
given. -/
structure Declaration.WellFormed (declaration : Declaration) (hasBlock : Bool) : Prop where
  label : declaration.label ≠ none → declaration.hasColon = true
  block : hasBlock = true → declaration.hasColon = true
  imported : declaration.imported ≠ none →
    declaration.hasColon = true ∧ declaration.label = none ∧ hasBlock = false

/-- What is promised of a node of a tree that was read. -/
def Node.WellFormed : Node → Prop
  | .document _ => True
  | .item (.method m) => Argument.Alike m.arguments ∧ ∀ returns, m.returns = some returns →
    Argument.Alike returns
  | .item (.declaration d) => d.WellFormed false
  | .item (.container d _ _) => d.WellFormed true
  | .item _ => True
  | .block mark _ => mark.closed = true
  | .argument _ => True
  | .expression e => e.identifiers.length = e.connections.length + 1
  | .reference r => ∀ field ∈ r.fields, field.fields = []
  | .identifier i => i.WellFormed
  | .connection c => IsOp c.op c.direction
  | .label l => l.WellFormed

/-! ## Nodes that are written -/

/-- The node is a part of what the grammar reads. -/
def Node.Written : Node → Prop
  | .document d => ∀ child ∈ d.children, ∃ maxDepth depth, child.Written maxDepth depth
  | .item i => ∃ maxDepth depth, i.Written maxDepth depth
  | .block mark items =>
    mark.closed = true ∧ ∀ child ∈ items, ∃ maxDepth depth, child.Written maxDepth depth
  | .argument _ => True
  | .expression e => e.Written
  | .reference r => r.Written
  | .identifier i => i.Written
  | .connection c => Mode.declaration.Spells .connection c.op
  | .label l => l.Written

/-- A part by itself is a name without fields. -/
theorem Identifier.IsPart.written {identifier : Identifier} (h : identifier.IsPart) :
    identifier.Written := by
  obtain ⟨name, quote, fields, span⟩ := identifier
  obtain rfl : fields = [] := h.fields
  exact ⟨h, by simp⟩

theorem Target.Written.node {target : Target} (h : target.Written) : target.node.Written := by
  cases target <;> exact h

/-- The parts of a declaration are written. -/
theorem Declaration.Written.children {declaration : Declaration} (h : declaration.Written) :
    (∀ node ∈ Node.ofLabel declaration.label, node.Written) ∧
      ∀ node ∈ Node.ofImport declaration.imported, node.Written := by
  constructor
  · intro node hnode
    obtain ⟨label, hlabel, rfl⟩ := List.mem_map.mp hnode
    exact h.label label (Option.mem_toList.mp hlabel)
  · intro node hnode
    obtain ⟨imported, himported, rfl⟩ := List.mem_map.mp hnode
    exact ⟨0, 0, .importing (h.imported imported (Option.mem_toList.mp himported))⟩

/-- The parts of an item are written. -/
theorem Item.Written.children {maxDepth : Int} {depth : Nat} {item : Item}
    (h : item.Written maxDepth depth) : ∀ node ∈ (Node.item item).children, node.Written := by
  cases h with
  | comment =>
      unfold commentItem
      split <;> simp [Node.children]
  | importing => simp [Node.children]
  | method written =>
      simp only [Node.children, List.cons_append, List.forall_mem_cons, List.forall_mem_append,
        List.forall_mem_map]
      exact ⟨written.name, fun _ _ => trivial, fun _ _ => trivial⟩
  | declaration written =>
      obtain ⟨hlabel, himported⟩ := written.children
      simp only [Node.children, List.cons_append, List.forall_mem_cons, List.forall_mem_append]
      exact ⟨written.target.node, hlabel, himported⟩
  | container written _ _ closed _ within =>
      obtain ⟨hlabel, himported⟩ := written.children
      simp only [Node.children, List.cons_append, List.forall_mem_cons, List.forall_mem_append]
      exact ⟨written.target.node, hlabel, ⟨closed, fun item hitem => ⟨_, _, within item hitem⟩⟩,
        himported⟩

/-- The parts of a written node are written. -/
theorem Node.Written.children {node : Node} (h : node.Written) :
    ∀ part ∈ node.children, part.Written := by
  cases node with
  | document d => exact List.forall_mem_map.mpr h
  | item item =>
      obtain ⟨maxDepth, depth, hitem⟩ := h
      exact hitem.children
  | block mark items => exact List.forall_mem_map.mpr h.2
  | argument a => simp [Node.children]
  | expression e =>
      simp only [Node.children, Expression.identifiers, List.forall_mem_append,
        List.forall_mem_map, List.forall_mem_cons]
      exact ⟨⟨h.first, h.others⟩, h.connections⟩
  | reference r =>
      simp only [Node.children, List.forall_mem_cons, List.forall_mem_map]
      exact ⟨h.expression, fun field hfield => (h.fields field hfield).written⟩
  | identifier i =>
      simp only [Node.children, List.forall_mem_map]
      exact fun field hfield => (h.fields field hfield).written
  | connection c => simp [Node.children]
  | label l => simp [Node.children]

/-! ## What is written is well-formed -/

/-- A name that is written is well formed. -/
theorem Identifier.Written.wellFormed {identifier : Identifier} (h : identifier.Written) :
    identifier.WellFormed := by
  obtain ⟨name, quote, fields, span⟩ := identifier
  have hfields : ∀ field ∈ fields, field.fields = [] :=
    fun field hfield => (h.fields field hfield).fields
  cases h.head with
  | bare spelled =>
      exact ⟨hfields, fun _ => (IsName.of_spells spelled).isBareName, fun hquote => absurd rfl hquote⟩
  | quoted spelled =>
      have hquoted := IsQuoted.of_spells spelled
      obtain ⟨mark, _, hmark, _⟩ := hquoted.quote_unquote?
      exact ⟨hfields, fun hquote => absurd (hmark.symm.trans hquote) (by simp),
        fun _ => hquoted.getLast?_unquote?⟩

/-- A label that is written is well formed. -/
theorem Label.Written.wellFormed {label : Label} (h : label.Written) : label.WellFormed := by
  cases h with
  | code _ parted => exact CodeParts.of_ofText? parted
  | @number raw value span spelled valued =>
      obtain ⟨_, _, ⟨n, rfl⟩ | ⟨x, rfl⟩⟩ := (numberValue_spec raw (.ofText [])).ok (valued _) <;>
        trivial
  | boolean => trivial
  | quoted spelled =>
      obtain ⟨mark, hmark, _, hquote⟩ := (IsQuoted.of_spells_label spelled).quote_unquote?
      obtain rfl := List.mem_singleton.mp hmark
      exact hquote.symm
  | text spelled => exact ⟨rfl, isFreeText_of_spells spelled⟩
  | constraints some spelled => exact ⟨some, fun name hname => Mode.lists_constraints.all_of_spells (spelled name hname)⟩

/-- A declaration that is written is well formed, its block apart. -/
theorem Declaration.Written.wellFormed {declaration : Declaration} (h : declaration.Written) :
    declaration.WellFormed false := by
  have hcolon : declaration.label ≠ none ∨ declaration.imported ≠ none →
      declaration.hasColon = true := by
    intro hgiven
    refine (Bool.not_eq_false _).mp fun hnone => ?_
    obtain ⟨hlabel, himported⟩ := h.colon hnone
    exact hgiven.elim (absurd hlabel) (absurd himported)
  exact ⟨fun hlabel => hcolon (.inl hlabel), by simp,
    fun himported => ⟨hcolon (.inr himported), h.single himported, rfl⟩⟩

/-- An item that is written is well formed. -/
theorem Item.Written.wellFormed {maxDepth : Int} {depth : Nat} {item : Item}
    (h : item.Written maxDepth depth) : (Node.item item).WellFormed := by
  cases h with
  | comment =>
      unfold commentItem
      split <;> trivial
  | importing => trivial
  | method written =>
      exact ⟨written.arguments.alike, fun returns hreturns => (written.returns returns hreturns).alike⟩
  | declaration written => exact written.wellFormed
  | container written colon imported =>
      exact ⟨fun _ => colon, fun _ => colon, fun himported => absurd imported himported⟩

/-- A node that is written is well formed, whatever its kind. -/
theorem Node.Written.wellFormed {node : Node} (h : node.Written) : node.WellFormed := by
  cases node with
  | document d => trivial
  | item item =>
      obtain ⟨maxDepth, depth, hitem⟩ := h
      exact hitem.wellFormed
  | block mark items => exact h.1
  | argument a => trivial
  | expression e =>
      have hcount := h.count
      simp only [Node.WellFormed, Expression.identifiers, List.length_cons]
      omega
  | reference r => exact fun field hfield => (h.fields field hfield).fields
  | identifier i => exact Identifier.Written.wellFormed h
  | connection c =>
      obtain ⟨direction, hop⟩ := (IsConnection.of_spells h).isOp
      obtain rfl := hop.direction
      exact hop
  | label l => exact Label.Written.wellFormed h

/-- Every node of a tree that a source is read to is well-formed. -/
theorem Document.ofText_wellFormed {config : Config} {source : Text} {document : Document}
    (h : ofText config source = .ok document) :
    ∀ node ∈ (Node.document document).walk, node.WellFormed := by
  have hwritten : (Node.document document).Written :=
    fun child hchild => ⟨_, _, written_of_ofText h child hchild⟩
  intro node hnode
  exact (Node.forall_walk (fun _ => Node.Written.children) hwritten node hnode).wellFormed

/-- In a source with a connection, a block, a method and constraints. -/
theorem Document.ofText_wellFormed_block :
    ∃ document,
      ofText .default "a.b <-> 'c': x \\# \x7bf(p, q int)\nd: [e; f]\x7d".toList = .ok document ∧
        ∀ node ∈ (Node.document document).walk, node.WellFormed := by
  obtain ⟨document, hdocument⟩ := exists_ok_of_isOk
    (x := ofText .default "a.b <-> 'c': x \\# \x7bf(p, q int)\nd: [e; f]\x7d".toList)
    (by decide +kernel)
  exact ⟨document, hdocument, ofText_wellFormed hdocument⟩

end DiagramText
