import DiagramText.Canonical
import DiagramText.Text.JsonString
import DiagramText.Tree.Node

/-!
# S-expressions of trees

The dump of a tree as an S-expression: each node on a line of its own with its name, its text as a
JSON string if it has one, and its parts indented below it. The parentheses that close a node stand
at the end of its last line.

`Document.dump` writes the lines with the parts still to be written on a stack. Every part takes a
line of its own, so the lines that the stack takes go down by one each time (`Dump.lineCount_eq`).
-/

namespace DiagramText

/-- The name of the kind of a literal. -/
def Scalar.kindName : Scalar → String
  | .integer _ => "integer"
  | .float _ => "float"
  | .boolean _ => "boolean"
  | .text _ => "text"
  | .quoted _ => "string"

/-! ## How many lines parts take -/

/-- How many lines all values take, where each takes as many as it is counted for. -/
def Dump.total {α : Type} (count : α → Nat) : List α → Nat
  | [] => 0
  | value :: others => count value + total count others

@[simp] theorem Dump.total_nil {α : Type} (count : α → Nat) : total count [] = 0 := rfl

@[simp] theorem Dump.total_cons {α : Type} (count : α → Nat) (value : α) (others : List α) :
    total count (value :: others) = count value + total count others := rfl

/-- How many lines a name takes. -/
def Identifier.lineCount (identifier : Identifier) : Nat :=
  1 + identifier.fields.length

/-- How many lines an expression takes. -/
def Expression.lineCount (expression : Expression) : Nat :=
  1 + (expression.first.lineCount +
    Dump.total (fun edge => 1 + edge.2.2.lineCount) expression.edges)

/-- How many lines a reference takes. -/
def Reference.lineCount (reference : Reference) : Nat :=
  1 + (reference.expression.lineCount + (1 + reference.fields.length))

/-- How many lines a target takes. -/
def Target.lineCount : Target → Nat
  | .expression e => e.lineCount
  | .reference r => r.lineCount

/-- How many lines a label takes. -/
def Label.lineCount : Label → Nat
  | .scalar .. => 2
  | .code .. => 4
  | .constraints names _ => 1 + names.length

/-- How many lines an argument takes. -/
def Argument.lineCount (argument : Argument) : Nat :=
  1 + (1 + argument.type.toList.length)

/-- How many lines some arguments take. -/
def Argument.lineCounts (arguments : List Argument) : Nat :=
  Dump.total (·.lineCount) arguments

/-- How many lines a method takes. -/
def Method.lineCount (method : Method) : Nat :=
  1 + (method.name.lineCount + (1 + Argument.lineCounts method.arguments) +
    Dump.total (fun returns => 1 + Argument.lineCounts returns) method.returns.toList)

/-- How many lines a declaration takes, its block apart. -/
def Declaration.lineCount (declaration : Declaration) : Nat :=
  1 + (declaration.target.lineCount + declaration.imported.toList.length +
    Dump.total (·.lineCount) declaration.label.toList)

/-- How many lines say that a block is not closed. -/
def BlockMark.lineCount (mark : BlockMark) : Nat :=
  if mark.closed then 0 else 1

mutual

/-- How many lines an item takes. -/
def Item.lineCount : Item → Nat
  | .comment .. => 1
  | .blockComment .. => 1
  | .importing _ => 1
  | .method m => m.lineCount
  | .declaration d => d.lineCount
  | .container d mark children =>
    d.lineCount + (1 + (Item.lineCounts children + mark.lineCount))

/-- How many lines some items take. -/
def Item.lineCounts : List Item → Nat
  | [] => 0
  | item :: others => item.lineCount + Item.lineCounts others

end

/-- How many lines a node takes with all below it. -/
def Node.lineCount : Node → Nat
  | .document d => 1 + Item.lineCounts d.children
  | .item i => i.lineCount
  | .block mark children => 1 + (Item.lineCounts children + mark.lineCount)
  | .argument a => a.lineCount
  | .expression e => e.lineCount
  | .reference r => r.lineCount
  | .identifier i => i.lineCount
  | .connection _ => 1
  | .label l => l.lineCount

namespace Dump

/-! ## Parts -/

/-- A part of a dump: a node, a leaf that is written already, or a name over parts that no node of
the tree stands for. -/
inductive Part where
  | node (node : Node)
  | leaf (written : Text)
  | group (head : Text) (children : List Part)

/-- A name up to where it is closed. -/
def head (name : String) : Text :=
  ['('] ++ name.toList

/-- A name with a text up to where it is closed. -/
def labelledHead (name : String) (text : Text) : Text :=
  head name ++ [' '] ++ text.json

/-- A name with a text, closed. -/
def leaf (name : String) (text : Text) : Text :=
  labelledHead name text ++ [')']

/-- A field of a name. -/
def field (identifier : Identifier) : Part :=
  .leaf (leaf "field" identifier.name)

/-- Arguments under a name of their own. -/
def argumentGroup (name : String) (arguments : List Argument) : Part :=
  .group (head name) (arguments.map fun argument => .node (.argument argument))

/-- What a declaration has in front of its block. -/
def declarationParts (declaration : Declaration) : List Part :=
  (declaration.target.node :: Node.ofImport declaration.imported ++
    Node.ofLabel declaration.label).map .node

/-- What a block has inside. One without its closing brace says so. -/
def blockParts (mark : BlockMark) (children : List Item) : List Part :=
  (children.map fun item => .node (.item item)) ++
    if mark.closed then [] else [.leaf "(MISSING \"\x7d\")".toList]

/-- A node up to where it is closed, and its parts. The operator of a connection is in ASCII
only. -/
def describe : Node → Text × List Part
  | .document d => (head "source_file", d.children.map fun item => .node (.item item))
  | .item (.comment text _) => ((leaf "comment" text).dropLast, [])
  | .item (.blockComment text _) => ((leaf "block_comment" text).dropLast, [])
  | .item (.importing i) =>
    ((leaf "import" ((if i.spread then "...@".toList else ['@']) ++ i.path)).dropLast, [])
  | .item (.method m) =>
    (head "method_declaration",
      .node (.identifier m.name) :: argumentGroup "arguments" m.arguments ::
        m.returns.toList.map (argumentGroup "returns"))
  | .item (.declaration d) => (head "declaration", declarationParts d)
  | .item (.container d mark children) =>
    (head "declaration", declarationParts d ++ [.node (.block mark children)])
  | .block mark children => (head "block", blockParts mark children)
  | .argument a =>
    (head "argument",
      .leaf (leaf "argument_name" a.name) ::
        a.type.toList.map fun type => .leaf (leaf "argument_type" type))
  | .expression e =>
    (head "expression",
      .node (.identifier e.first) :: e.edges.flatMap fun edge =>
        [.node (.connection edge.2.1), .node (.identifier edge.2.2)])
  | .reference r =>
    (head "connection_reference",
      .node (.expression r.expression) ::
        .leaf (leaf "connection_identifier" (Text.ofInt r.index)) :: r.fields.map field)
  | .identifier i => (labelledHead "identifier" i.name, i.fields.map field)
  | .connection c => (head "connection" ++ [' '] ++ c.op.asciiJson, [])
  | .label (.scalar value raw _) => (head "label", [.leaf (leaf value.kindName raw)])
  | .label (.code parts _) =>
    (head "label", [.group (head "label_codeblock")
      [.leaf (leaf "codeblock_language" parts.language),
        .leaf (leaf "codeblock_content" parts.content)]])
  | .label (.constraints names _) =>
    (head "label", names.map fun name => .leaf (leaf "label_constraint" name))

mutual

/-- How many lines a part takes. -/
def Part.lineCount : Part → Nat
  | .node n => n.lineCount
  | .leaf _ => 1
  | .group _ children => 1 + Part.lineCounts children

/-- How many lines some parts take. -/
def Part.lineCounts : List Part → Nat
  | [] => 0
  | part :: others => part.lineCount + Part.lineCounts others

end

namespace Part

@[simp] theorem lineCount_node (n : Node) : (node n).lineCount = n.lineCount := by
  rw [lineCount]

@[simp] theorem lineCount_leaf (written : Text) : (leaf written).lineCount = 1 := by
  rw [lineCount]

@[simp] theorem lineCounts_nil : lineCounts [] = 0 := by
  rw [lineCounts]

@[simp] theorem lineCounts_cons (part : Part) (others : List Part) :
    lineCounts (part :: others) = part.lineCount + lineCounts others := by
  rw [lineCounts]

@[simp] theorem lineCounts_append (parts others : List Part) :
    lineCounts (parts ++ others) = lineCounts parts + lineCounts others := by
  induction parts with
  | nil => simp
  | cons part parts ih => simp [ih, Nat.add_assoc]

/-- Parts take the lines of each of them. -/
theorem lineCounts_map {α : Type} (part : α → Part) (values : List α) :
    lineCounts (values.map part) = total (fun value => (part value).lineCount) values := by
  induction values with
  | nil => simp
  | cons value values ih => simp [ih]

/-- As many leaves take as many lines. -/
theorem lineCounts_leaves {α : Type} (written : α → Text) (values : List α) :
    lineCounts (values.map fun value => leaf (written value)) = values.length := by
  induction values with
  | nil => simp
  | cons value values ih => simp [ih, Nat.add_comm]

@[simp] theorem lineCounts_items (items : List Item) :
    lineCounts (items.map fun item => node (.item item)) = Item.lineCounts items := by
  induction items with
  | nil => rw [Item.lineCounts]; rfl
  | cons item items ih => simp [ih, Item.lineCounts, Node.lineCount]

@[simp] theorem lineCount_argumentGroup (name : String) (arguments : List Argument) :
    (argumentGroup name arguments).lineCount = 1 + Argument.lineCounts arguments := by
  rw [argumentGroup, lineCount, lineCounts_map]
  rfl

end Part

theorem lineCounts_declarationParts (declaration : Declaration) :
    1 + Part.lineCounts (declarationParts declaration) = declaration.lineCount := by
  obtain ⟨target, _, label, imported, _⟩ := declaration
  have htarget : target.node.lineCount = target.lineCount := by
    cases target <;> rfl
  have hlabel : ∀ label : Label, (Node.label label).lineCount = label.lineCount := fun _ => rfl
  have himport : ∀ found : Import, (Node.item (.importing found)).lineCount = 1 := by
    intro found
    rw [Node.lineCount, Item.lineCount]
  cases imported <;> cases label <;>
    simp [declarationParts, Declaration.lineCount, htarget, hlabel, himport, Node.ofImport,
      Node.ofLabel, Nat.add_assoc]

/-- A node takes one line, and its parts the others. -/
theorem lineCount_eq (node : Node) :
    node.lineCount = 1 + Part.lineCounts (describe node).2 := by
  have hedges : ∀ edges : List (Identifier × Connection × Identifier),
      Part.lineCounts (edges.flatMap fun edge =>
        [.node (.connection edge.2.1), .node (.identifier edge.2.2)]) =
        total (fun edge => 1 + edge.2.2.lineCount) edges := by
    intro edges
    induction edges with
    | nil => simp
    | cons edge edges ih => simp [ih, Node.lineCount, Nat.add_assoc]
  have hfields : ∀ fields : List Identifier, Part.lineCounts (fields.map field) = fields.length :=
    Part.lineCounts_leaves _
  cases node with
  | document d => simp [describe, Node.lineCount]
  | block mark children =>
      cases hclosed : mark.closed <;>
        simp [describe, blockParts, Node.lineCount, BlockMark.lineCount, hclosed]
  | argument a => simp [describe, Node.lineCount, Argument.lineCount, Part.lineCounts_leaves]
  | expression e => simp [describe, Node.lineCount, Expression.lineCount, hedges]
  | reference r => simp [describe, Node.lineCount, Reference.lineCount, hfields]
  | identifier i => simp [describe, Node.lineCount, Identifier.lineCount, hfields]
  | connection c => simp [describe, Node.lineCount]
  | label l =>
      cases l <;> simp [describe, Node.lineCount, Label.lineCount, Part.lineCount,
        Part.lineCounts_leaves]
  | item item =>
      cases item with
      | declaration d =>
          rw [describe, lineCounts_declarationParts]
          rfl
      | container d mark children =>
          rw [describe, Part.lineCounts_append, ← Nat.add_assoc, lineCounts_declarationParts]
          simp [Node.lineCount, Item.lineCount]
      | method m =>
          simp [describe, Node.lineCount, Item.lineCount, Method.lineCount, Part.lineCounts_map,
            Nat.add_assoc]
      | _ => simp [describe, Node.lineCount, Item.lineCount]

/-! ## Lines -/

/-- A part to be written: how deep it stands, and how many parentheses are owed after its last
line. -/
structure Task where
  part : Part
  level : Nat
  closers : Nat

/-- The parts below a node to be written. The last of them owes the parentheses. -/
def tasks (level closers : Nat) : List Part → List Task
  | [] => []
  | [last] => [⟨last, level, closers⟩]
  | part :: next :: others => ⟨part, level, 0⟩ :: tasks level closers (next :: others)

/-- Whatever is owed, the parts take their lines. -/
theorem map_part_tasks (level closers : Nat) (parts : List Part) :
    (tasks level closers parts).map (·.part) = parts := by
  induction parts with
  | nil => rfl
  | cons part others ih =>
      cases others with
      | nil => rfl
      | cons next others => exact congrArg (part :: ·) ih

/-- The line with a head, and what is to be written below it. Without parts the head is closed on
its line. -/
def headLine (indent : Text) (level closers : Nat) (content : Text × List Part) :
    Text × List Task :=
  let line := Canonical.margin indent level ++ content.1
  if content.2.isEmpty then (line ++ List.replicate (closers + 1) ')', [])
  else (line, tasks (level + 1) (closers + 1) content.2)

/-- The line that a task begins with, and the tasks that it leaves. -/
def Task.step (indent : Text) : Task → Text × List Task
  | ⟨.leaf written, level, closers⟩ =>
    (Canonical.margin indent level ++ written ++ List.replicate closers ')', [])
  | ⟨.node node, level, closers⟩ => headLine indent level closers (describe node)
  | ⟨.group head children, level, closers⟩ => headLine indent level closers (head, children)

/-- How many lines some tasks take. -/
def taskCount (stack : List Task) : Nat :=
  Part.lineCounts (stack.map (·.part))

theorem taskCount_headLine (indent : Text) (level closers : Nat) (content : Text × List Part) :
    taskCount (headLine indent level closers content).2 = Part.lineCounts content.2 := by
  unfold headLine taskCount
  by_cases hempty : content.2.isEmpty = true
  · rw [if_pos hempty, List.isEmpty_iff.mp hempty]
    rfl
  · rw [if_neg hempty, map_part_tasks]

/-- A task takes one line, and what it leaves the others. -/
theorem lineCount_step (indent : Text) (task : Task) :
    task.part.lineCount = 1 + taskCount (task.step indent).2 := by
  obtain ⟨part, level, closers⟩ := task
  cases part with
  | node node => rw [Task.step, taskCount_headLine, Part.lineCount_node, lineCount_eq]
  | leaf written => rw [Part.lineCount_leaf]; rfl
  | group head children => rw [Task.step, taskCount_headLine, Part.lineCount]

/-- Writes the tasks on a stack. -/
def linesFrom (indent : Text) : List Task → List Text
  | [] => []
  | task :: pending =>
    (task.step indent).1 :: linesFrom indent ((task.step indent).2 ++ pending)
termination_by stack => taskCount stack
decreasing_by
  simp only [taskCount, List.map_append, List.map_cons, Part.lineCounts_append,
    Part.lineCounts_cons, lineCount_step indent task]
  omega

end Dump

/-- The dump of a document, each level indented once more. -/
def Document.dump (indent : Text) (document : Document) : Text :=
  (Dump.linesFrom indent [⟨.node (.document document), 0, 0⟩]).flatMap (· ++ ['\n'])

end DiagramText
