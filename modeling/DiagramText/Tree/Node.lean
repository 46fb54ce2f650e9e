import DiagramText.Tree

/-!
# Nodes

Every part of a tree is a node, with its kind, its span and its parts in the order in which the
tree holds them.
-/

namespace DiagramText

/-- A part of a tree. -/
inductive Node where
  | document (document : Document)
  | item (item : Item)
  | block (mark : BlockMark) (children : List Item)
  | argument (argument : Argument)
  | expression (expression : Expression)
  | reference (reference : Reference)
  | identifier (identifier : Identifier)
  | connection (connection : Connection)
  | label (label : Label)

/-- The node of a target. -/
def Target.node : Target → Node
  | .expression e => .expression e
  | .reference r => .reference r

/-- The label of a declaration, with or without a block. -/
def Item.label? : Item → Option Label
  | .declaration d => d.label
  | .container d _ _ => d.label
  | _ => none

namespace Node

/-- The name of the kind of a node. -/
def kindName : Node → String
  | .document _ => "source_file"
  | .item (.comment ..) => "comment"
  | .item (.blockComment ..) => "block_comment"
  | .item (.importing _) => "import"
  | .item (.method _) => "method_declaration"
  | .item (.declaration _) => "declaration"
  | .item (.container ..) => "declaration"
  | .block .. => "block"
  | .argument _ => "argument"
  | .expression _ => "expression"
  | .reference _ => "connection_reference"
  | .identifier _ => "identifier"
  | .connection _ => "connection"
  | .label (.code ..) => "label_codeblock"
  | .label (.scalar ..) => "label"
  | .label (.constraints ..) => "label_constraints"

/-- The span of a node. -/
def span : Node → Span
  | .document d => d.span
  | .item (.comment _ span) => span
  | .item (.blockComment _ span) => span
  | .item (.importing i) => i.span
  | .item (.method m) => m.span
  | .item (.declaration d) => d.span
  | .item (.container d _ _) => d.span
  | .block mark _ => mark.span
  | .argument a => a.span
  | .expression e => e.span
  | .reference r => r.span
  | .identifier i => i.span
  | .connection c => c.span
  | .label l => l.span

/-- Whether the node is a line or block comment. -/
def isComment : Node → Bool
  | .item i => i.isComment
  | _ => false

/-- The label of a declaration, as a node. -/
def ofLabel (label : Option Label) : List Node :=
  label.toList.map .label

/-- The import of a declaration, as a node. -/
def ofImport (imported : Option Import) : List Node :=
  imported.toList.map fun i => .item (.importing i)

/-- The parts of a node: of an expression the names before the connections, of a declaration the
target, the label, the block and the import. -/
def children : Node → List Node
  | .document d => d.children.map .item
  | .item (.method m) =>
    .identifier m.name :: m.arguments.map .argument ++ (m.returns.getD []).map .argument
  | .item (.declaration d) => d.target.node :: ofLabel d.label ++ ofImport d.imported
  | .item (.container d mark items) =>
    d.target.node :: ofLabel d.label ++ .block mark items :: ofImport d.imported
  | .item _ => []
  | .block _ items => items.map .item
  | .argument _ => []
  | .expression e => e.identifiers.map .identifier ++ e.connections.map .connection
  | .reference r => .expression r.expression :: r.fields.map .identifier
  | .identifier i => i.fields.map .identifier
  | .connection _ => []
  | .label _ => []

end Node

end DiagramText
