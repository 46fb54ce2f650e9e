import DiagramText.Lexeme.CodeBlock
import DiagramText.Lexeme.Literal
import DiagramText.Numeral
import DiagramText.Text.Quoted

/-!
# Syntax trees

The tree of a diagram source. A document holds items: comments, imports, methods and declarations.
A declaration names a target and may give it a label, an imported diagram, or a block of further
items. Every node carries the span it was read from.
-/

namespace DiagramText

/-- A name, bare or quoted, with the fields that follow it after dots. -/
structure Identifier where
  name : Text
  quote : Option QuoteMark
  fields : List Identifier
  span : Span
deriving Repr

namespace Identifier

/-- The bare name of a dotted path. -/
def chain? : List Text → Option Identifier
  | [] => none
  | head :: fields => some ⟨head, none, fields.map (⟨·, none, [], .nowhere⟩), .nowhere⟩

/-- The name and the names of its fields. -/
def path (identifier : Identifier) : List Text :=
  identifier.name :: identifier.fields.map (·.name)

/-- Whether the name has fields. -/
def isChain (identifier : Identifier) : Bool :=
  !identifier.fields.isEmpty

end Identifier

/-- Which way a connection points. -/
inductive Direction where
  | forward
  | reverse
  | bidirectional
  | undirected
deriving DecidableEq, Repr

/-- The direction that the arrowheads at the two ends of a connection show. -/
def Direction.ofOp (op : Text) : Direction :=
  match op.head? == some '<', op.getLast? == some '>' with
  | true, true => .bidirectional
  | true, false => .reverse
  | false, true => .forward
  | false, false => .undirected

/-- A connection as written. -/
structure Connection where
  op : Text
  span : Span
deriving DecidableEq, Repr

/-- Which way the connection points. -/
def Connection.direction (connection : Connection) : Direction :=
  .ofOp connection.op

/-- A name, or names joined by connections: the connection at each place leads to the next name. -/
structure Expression where
  first : Identifier
  others : List Identifier
  connections : List Connection
  span : Span
deriving Repr

namespace Expression

/-- All the names, in order. -/
def identifiers (expression : Expression) : List Identifier :=
  expression.first :: expression.others

/-- Whether any names are connected. -/
def isConnection (expression : Expression) : Bool :=
  !expression.connections.isEmpty

/-- Each connection between the names it joins. -/
def edges (expression : Expression) : List (Identifier × Connection × Identifier) :=
  expression.identifiers.zip (expression.connections.zip expression.others)

end Expression

/-- One of the connections between the names of an expression, by its number, with fields. -/
structure Reference where
  expression : Expression
  index : Int
  fields : List Identifier
  span : Span
deriving Repr

/-- What a declaration is about. -/
inductive Target where
  | expression (expression : Expression)
  | reference (reference : Reference)
deriving Repr

namespace Target

/-- The span of the target. -/
def span : Target → Span
  | .expression e => e.span
  | .reference r => r.span

/-- Whether the target is about connections. -/
def isConnection : Target → Bool
  | .expression e => e.isConnection
  | .reference _ => true

end Target

/-- The value of a literal label. -/
inductive Scalar where
  | integer (value : Int)
  | float (value : Binary64)
  | boolean (value : Bool)
  | text (value : Text)
  | quoted (value : Text)
deriving DecidableEq, Repr

/-- What follows the colon of a declaration. -/
inductive Label where
  | code (parts : CodeParts) (span : Span)
  | scalar (value : Scalar) (raw : Text) (span : Span)
  | constraints (names : List Text) (span : Span)
deriving DecidableEq, Repr

/-- The span of the label. -/
def Label.span : Label → Span
  | .code _ span => span
  | .scalar _ _ span => span
  | .constraints _ span => span

/-- Whether the label is free text that would read as a number or a boolean, were a blank to
follow it. -/
def Label.isBareLiteral : Label → Bool
  | .scalar (.text _) raw _ => readsAsLiteral raw
  | _ => false

/-- An import of another source by its path. -/
structure Import where
  path : Text
  spread : Bool
  span : Span
deriving DecidableEq, Repr

/-- An argument of a method, or one of its results. -/
structure Argument where
  name : Text
  type : Option Text
  span : Span
deriving DecidableEq, Repr

/-- A method with its arguments and, if given, its results. -/
structure Method where
  name : Identifier
  arguments : List Argument
  returns : Option (List Argument)
  span : Span
deriving Repr

/-- All of a declaration but its block. -/
structure Declaration where
  target : Target
  hasColon : Bool
  label : Option Label
  imported : Option Import
  span : Span
deriving Repr

/-- Whether a block has its closing brace, and its span. -/
structure BlockMark where
  closed : Bool
  span : Span
deriving DecidableEq, Repr

/-- What a document or a block holds. -/
inductive Item where
  | comment (text : Text) (span : Span)
  | blockComment (text : Text) (span : Span)
  | importing (imported : Import)
  | method (method : Method)
  /-- A declaration without a block. -/
  | declaration (declaration : Declaration)
  /-- A declaration with a block of items. -/
  | container (declaration : Declaration) (mark : BlockMark) (children : List Item)
deriving Repr

namespace Item

/-- Whether the item is a line or block comment. -/
def isComment : Item → Bool
  | .comment .. => true
  | .blockComment .. => true
  | _ => false

/-- Whether the item is a declaration, with a block or without. -/
def isDeclaration : Item → Bool
  | .declaration .. => true
  | .container .. => true
  | _ => false

end Item

/-- A whole source. -/
structure Document where
  children : List Item
  span : Span
deriving Repr

/-- The declarations at the top of the document. -/
def Document.declarations (document : Document) : List Item :=
  document.children.filter (·.isDeclaration)

end DiagramText
