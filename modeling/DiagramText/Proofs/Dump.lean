import DiagramText.Proofs.Datum
import DiagramText.SExpr
import Mathlib.Data.List.Forall2

/-!
# The dump of a tree

`Document.datum` is the expression of a tree: a list for every node, of its name, its text if it
has one, and its parts.  The dump writes it line by line and owes the closing parentheses of a
node to the last of its lines, however deep that is (`Dump.Denotes`, `Dump.takes_headLine`).  A
reader of S-expressions finds just this one expression in the dump (`Document.read_dump`).
-/

namespace DiagramText

namespace Datum

/-- A list that starts with a name, perhaps with a text, in front of its parts. -/
def node (name : String) (text : Option Text) (parts : List Datum) : Datum :=
  .list (.atom name.toList :: (text.toList.map .string ++ parts))

/-- A name and its parts. -/
def group (name : String) (parts : List Datum) : Datum :=
  node name none parts

/-- A name and its text. -/
def field (name : String) (text : Text) : Datum :=
  node name (some text) []

end Datum

/-! ## The expressions of trees -/

/-- A name with its fields behind it. -/
def Identifier.datum (identifier : Identifier) : Datum :=
  .node "identifier" (some identifier.name) (identifier.fields.map (.field "field" ·.name))

/-- The first name, then each connection with the name it leads to. -/
def Expression.datum (expression : Expression) : Datum :=
  .group "expression" (expression.first.datum ::
    (expression.connections.zip expression.others).flatMap fun hop =>
      [.field "connection" hop.1.op, hop.2.datum])

/-- The expression, its number and the fields. -/
def Target.datum : Target → Datum
  | .expression e => e.datum
  | .reference r =>
    .group "connection_reference" (r.expression.datum ::
      .field "connection_identifier" (Text.ofInt r.index) ::
      r.fields.map (.field "field" ·.name))

/-- The spelling of a literal under the name of its kind. -/
def Scalar.datum (raw : Text) : Scalar → Datum
  | .integer _ => .field "integer" raw
  | .float _ => .field "float" raw
  | .boolean _ => .field "boolean" raw
  | .text _ => .field "text" raw
  | .quoted _ => .field "string" raw

/-- A label with its literal as written, its code or its constraints. -/
def Label.datum : Label → Datum
  | .scalar value raw _ => .group "label" [value.datum raw]
  | .code parts _ =>
    .group "label" [.group "label_codeblock"
      [.field "codeblock_language" parts.language, .field "codeblock_content" parts.content]]
  | .constraints names _ => .group "label" (names.map (.field "label_constraint"))

/-- The path behind its mark. -/
def Import.datum (imported : Import) : Datum :=
  .field "import" ((if imported.spread then ['.', '.', '.', '@'] else ['@']) ++ imported.path)

/-- The name, and the type if there is one. -/
def Argument.datum (argument : Argument) : Datum :=
  .group "argument" (.field "argument_name" argument.name ::
    (argument.type.map (.field "argument_type")).toList)

/-- The name, the arguments, and the results if there are any. -/
def Method.datum (method : Method) : Datum :=
  .group "method_declaration" (method.name.datum ::
    .group "arguments" (method.arguments.map (·.datum)) ::
    (method.returns.map fun returns => .group "returns" (returns.map (·.datum))).toList)

/-- The target, then the import and the label that it has. -/
def Declaration.data (declaration : Declaration) : List Datum :=
  declaration.target.datum ::
    ((declaration.imported.map (·.datum)).toList ++ (declaration.label.map (·.datum)).toList)

mutual

/-- An item; the block of a declaration is its last part, and a block that is not closed ends with
the brace it misses. -/
def Item.datum : Item → Datum
  | .comment text _ => .field "comment" text
  | .blockComment text _ => .field "block_comment" text
  | .importing i => i.datum
  | .method m => m.datum
  | .declaration d => .group "declaration" d.data
  | .container d mark children =>
    .group "declaration" (d.data ++ [.group "block" (Item.data children ++
      if mark.closed then [] else [.field "MISSING" ['\x7d']])])

/-- The items in order. -/
def Item.data : List Item → List Datum
  | [] => []
  | item :: others => item.datum :: Item.data others

end

/-- The whole tree. -/
def Document.datum (document : Document) : Datum :=
  .group "source_file" (Item.data document.children)

/-! ## Lines -/

namespace Dump

/-- The name reads as one bare atom. -/
def Plain (name : String) : Prop :=
  name.toList ≠ [] ∧ name.toList.all Datum.isBare = true

instance (name : String) : Decidable (Plain name) :=
  inferInstanceAs (Decidable (_ ∧ _))

/-- The text of lines, each ended. -/
def ended (lines : List Text) : Text :=
  lines.flatMap (· ++ ['\n'])

/-- The part shows the datum, and then the parentheses that close the lists around it, before what is
still on the stack. -/
def Denotes (indent : Text) (part : Part) (datum : Datum) : Prop :=
  ∀ (level closers : Nat) (pending : List Task),
    Datum.Takes (ended (linesFrom indent (⟨part, level, closers⟩ :: pending)))
      (datum.pieces ++ List.replicate closers .closing) (ended (linesFrom indent pending))

/-- The head opens a list and shows its name and its text, up to what ends them. -/
def Heads (head : Text) (name : String) (text : Option Text) : Prop :=
  ∀ (ender : Char) (rest : Text), Datum.isBare ender = false →
    Datum.Takes (head ++ ender :: rest)
      (.opening :: .leaf (.atom name.toList) :: Datum.piecesAll (text.toList.map .string))
      (ender :: rest)

/-! ### Heads -/

variable {name : String}

/-- A head without text opens a list and shows its name. -/
theorem heads_head (hname : Plain name) : Heads (head name) name none := by
  intro ender rest hender
  rw [head, List.append_assoc]
  exact (Datum.takes_opening _).trans
    (Datum.takes_atom hname.1 (List.all_eq_true.mp hname.2) hender rest)

/-- A string behind the name is the text. -/
theorem heads_string (hname : Plain name) {written text : Text}
    (hwritten : ∀ rest, Datum.Takes (written ++ rest) [.leaf (.string text)] rest) :
    Heads (head name ++ [' '] ++ written) name (some text) := by
  intro ender rest _
  have hhead := heads_head hname ' ' (written ++ ender :: rest) (by decide)
  have hstring := (Datum.takes_blank (by decide : isBlank ' ' = true) _).trans
    (hwritten (ender :: rest))
  simpa [Datum.piecesAll, Datum.pieces] using hhead.trans hstring

/-- A head with a text as JSON string shows both. -/
theorem heads_labelledHead (hname : Plain name) (text : Text) :
    Heads (labelledHead name text) name (some text) :=
  heads_string hname (Datum.takes_json text)

/-- A leaf that is not closed is the head of one. -/
theorem heads_dropLast_leaf (hname : Plain name) (text : Text) :
    Heads (leaf name text).dropLast name (some text) := by
  rw [leaf, List.dropLast_concat]
  exact heads_labelledHead hname text

/-! ### Lines -/

variable {indent : Text}

/-- The parts of a node show their data, and the last of them the parentheses that close the lists
around. -/
theorem takes_tasks {parts : List Part} {data : List Datum}
    (h : List.Forall₂ (Denotes indent) parts data) (hne : parts ≠ []) (level closers : Nat)
    (pending : List Task) :
    Datum.Takes (ended (linesFrom indent (tasks level closers parts ++ pending)))
      (Datum.piecesAll data ++ List.replicate closers .closing)
      (ended (linesFrom indent pending)) := by
  induction h with
  | nil => exact absurd rfl hne
  | @cons part datum others otherData hfirst hothers ih =>
      cases hothers with
      | nil => simpa [tasks, Datum.piecesAll] using hfirst level closers pending
      | cons hsecond hrest =>
          -- An earlier part closes nothing around itself.
          have hhere := (hfirst level 0 _).trans (ih (List.cons_ne_nil _ _))
          rw [tasks, List.cons_append]
          simpa [Datum.piecesAll, List.append_assoc] using hhere

section
variable (hindent : ∀ c ∈ indent, isBlank c = true)
include hindent

/-- Nothing is read from the margin. -/
theorem takes_margin (level : Nat) (rest : Text) :
    Datum.Takes (Canonical.margin indent level ++ rest) [] rest := by
  refine Datum.takes_blanks (fun c hc => ?_) rest
  obtain ⟨copy, hcopy, hc⟩ := List.mem_flatten.mp hc
  rw [List.eq_of_mem_replicate hcopy] at hc
  exact hindent c hc

/-- A line with a head denotes its list once the parts below denote theirs. -/
theorem takes_headLine {head : Text} {text : Option Text} (hhead : Heads head name text)
    {children : List Part} {data : List Datum} (h : List.Forall₂ (Denotes indent) children data)
    (level closers : Nat) (pending : List Task) :
    Datum.Takes
      (ended ((headLine indent level closers (head, children)).1 ::
        linesFrom indent ((headLine indent level closers (head, children)).2 ++ pending)))
      ((Datum.node name text data).pieces ++ List.replicate closers .closing)
      (ended (linesFrom indent pending)) := by
  have hopening (ender : Char) (hender : Datum.isBare ender = false) (rest : Text) :=
    (takes_margin hindent level _).trans (hhead ender rest hender)
  cases h with
  | nil =>
      have hline := (hopening ')' (by decide) _).trans
        ((Datum.takes_closings (closers + 1) ('\n' :: ended (linesFrom indent pending))).trans
          (Datum.takes_blank (by decide) _))
      simpa [headLine, ended, Datum.node, Datum.pieces, Datum.piecesAll, List.replicate_succ]
        using hline
  | cons hfirst hothers =>
      have hparts := takes_tasks (.cons hfirst hothers) (List.cons_ne_nil _ _) (level + 1)
        (closers + 1) pending
      have hlines := (hopening '\n' (by decide) _).trans
        ((Datum.takes_blank (by decide) _).trans hparts)
      simpa [headLine, ended, Datum.node, Datum.pieces, Datum.piecesAll, Datum.piecesAll_append,
        List.replicate_succ] using hlines

/-- A node denotes what its head shows over what its parts denote. -/
theorem denotes_node {node : Node} {text : Option Text} {data : List Datum}
    (hhead : Heads (describe node).1 name text)
    (h : List.Forall₂ (Denotes indent) (describe node).2 data) :
    Denotes indent (.node node) (.node name text data) := by
  intro level closers pending
  rw [linesFrom, Task.step]
  exact takes_headLine hindent hhead h level closers pending

/-- A group shows the list of its parts under the name. -/
theorem denotes_group (hname : Plain name) {children : List Part} {data : List Datum}
    (h : List.Forall₂ (Denotes indent) children data) :
    Denotes indent (.group (head name) children) (.group name data) := by
  intro level closers pending
  rw [linesFrom, Task.step]
  exact takes_headLine hindent (heads_head hname) h level closers pending

/-- A leaf that is written already shows its name and its text. -/
theorem denotes_leaf (hname : Plain name) (text : Text) :
    Denotes indent (.leaf (leaf name text)) (.field name text) := by
  intro level closers pending
  have hopening := (takes_margin hindent level _).trans
    (heads_labelledHead hname text ')'
      (List.replicate closers ')' ++ '\n' :: ended (linesFrom indent pending)) (by decide))
  have hline := hopening.trans
    ((Datum.takes_closings (closers + 1) ('\n' :: ended (linesFrom indent pending))).trans
      (Datum.takes_blank (by decide) _))
  rw [linesFrom]
  simpa [Task.step, leaf, ended, Datum.field, Datum.node, Datum.pieces, Datum.piecesAll,
    List.replicate_succ] using hline

end

/-- Where each value is shown by its part, all of them are, in order. -/
theorem denotes_map {α : Type} {part : α → Part} {datum : α → Datum}
    (h : ∀ value, Denotes indent (part value) (datum value)) (values : List α) :
    List.Forall₂ (Denotes indent) (values.map part) (values.map datum) := by
  induction values with
  | nil => exact .nil
  | cons value others ih => exact .cons (h value) ih

/-- Where a value is shown by its part, so is one that may be there. -/
theorem denotes_option {α : Type} {part : α → Part} {datum : α → Datum}
    (h : ∀ value, Denotes indent (part value) (datum value)) (value : Option α) :
    List.Forall₂ (Denotes indent) (value.toList.map part) (value.map datum).toList := by
  cases value with
  | none => exact .nil
  | some value => exact .cons (h value) .nil

end Dump

/-! ## Trees -/

/-- Each name but the first stands behind the connection that leads to it. -/
theorem Expression.edges_map_snd (expression : Expression) :
    expression.edges.map (·.2) = expression.connections.zip expression.others := by
  refine List.map_snd_zip ?_
  rw [List.length_zip, Expression.identifiers, List.length_cons]
  omega

open Dump

section Trees

variable {indent : Text} (hindent : ∀ c ∈ indent, isBlank c = true)
include hindent

/-- A name shows its fields. -/
theorem Identifier.denotes (identifier : Identifier) :
    Denotes indent (.node (.identifier identifier)) identifier.datum :=
  denotes_node hindent (heads_labelledHead (by decide +kernel) identifier.name)
    (denotes_map (fun _ => denotes_leaf hindent (by decide +kernel) _) _)

theorem Connection.denotes (connection : Connection) :
    Denotes indent (.node (.connection connection)) (.field "connection" connection.op) :=
  denotes_node hindent
    (heads_string (by decide +kernel) (Datum.takes_asciiJson connection.op)) .nil

/-- An expression shows its names and the connections between them. -/
theorem Expression.denotes (expression : Expression) :
    Denotes indent (.node (.expression expression)) expression.datum := by
  have hhops (edges : List (Identifier × Connection × Identifier)) :
      List.Forall₂ (Denotes indent)
        (edges.flatMap fun edge =>
          [.node (.connection edge.2.1), .node (.identifier edge.2.2)])
        ((edges.map (·.2)).flatMap fun hop =>
          [.field "connection" hop.1.op, hop.2.datum]) := by
    induction edges with
    | nil => exact .nil
    | cons edge others ih =>
        exact .cons (edge.2.1.denotes hindent) (.cons (edge.2.2.denotes hindent) ih)
  have hedges := hhops expression.edges
  rw [expression.edges_map_snd] at hedges
  exact denotes_node hindent (heads_head (by decide +kernel))
    (.cons (expression.first.denotes hindent) hedges)

/-- A target shows the expression or the reference that it is. -/
theorem Target.denotes (target : Target) : Denotes indent (.node target.node) target.datum := by
  cases target with
  | expression e => exact e.denotes hindent
  | reference r =>
      exact denotes_node hindent (heads_head (by decide +kernel))
        (.cons (r.expression.denotes hindent)
          (.cons (denotes_leaf hindent (by decide +kernel) _)
            (denotes_map (fun _ => denotes_leaf hindent (by decide +kernel) _) _)))

/-- A label shows its literal, its code or its constraints. -/
theorem Label.denotes (label : Label) : Denotes indent (.node (.label label)) label.datum := by
  cases label with
  | scalar value raw span =>
      have hliteral : Denotes indent (.leaf (leaf value.kindName raw)) (value.datum raw) := by
        cases value with
        | integer => exact denotes_leaf hindent (by decide +kernel : Plain "integer") raw
        | float => exact denotes_leaf hindent (by decide +kernel : Plain "float") raw
        | boolean => exact denotes_leaf hindent (by decide +kernel : Plain "boolean") raw
        | text => exact denotes_leaf hindent (by decide +kernel : Plain "text") raw
        | quoted => exact denotes_leaf hindent (by decide +kernel : Plain "string") raw
      exact denotes_node hindent (heads_head (by decide +kernel)) (.cons hliteral .nil)
  | code parts span =>
      exact denotes_node hindent (heads_head (by decide +kernel))
        (.cons (denotes_group hindent (by decide +kernel)
          (.cons (denotes_leaf hindent (by decide +kernel) _)
            (.cons (denotes_leaf hindent (by decide +kernel) _) .nil))) .nil)
  | constraints names span =>
      exact denotes_node hindent (heads_head (by decide +kernel))
        (denotes_map (fun _ => denotes_leaf hindent (by decide +kernel) _) _)

theorem Import.denotes (imported : Import) :
    Denotes indent (.node (.item (.importing imported))) imported.datum := by
  have hmark : "...@".toList = ['.', '.', '.', '@'] := by decide +kernel
  unfold Import.datum
  rw [← hmark]
  exact denotes_node hindent (heads_dropLast_leaf (by decide +kernel) _) .nil

theorem Argument.denotes (argument : Argument) :
    Denotes indent (.node (.argument argument)) argument.datum :=
  denotes_node hindent (heads_head (by decide +kernel))
    (.cons (denotes_leaf hindent (by decide +kernel) _)
      (denotes_option (fun _ => denotes_leaf hindent (by decide +kernel) _) _))

/-- A method shows its name, its arguments and what it returns. -/
theorem Method.denotes (method : Method) :
    Denotes indent (.node (.item (.method method))) method.datum := by
  have hgroup {name : String} (hname : Plain name) (arguments : List Argument) :
      Denotes indent (argumentGroup name arguments)
        (.group name (arguments.map (·.datum))) :=
    denotes_group hindent hname (denotes_map (Argument.denotes hindent) arguments)
  exact denotes_node hindent (heads_head (by decide +kernel))
    (.cons (method.name.denotes hindent)
      (.cons (hgroup (by decide +kernel) _)
        (denotes_option (fun _ => hgroup (by decide +kernel) _) _)))

/-- A declaration shows its target, what it imports and its label, its block apart. -/
theorem Declaration.denotes (declaration : Declaration) :
    List.Forall₂ (Denotes indent) (declarationParts declaration) declaration.data := by
  unfold declarationParts Node.ofImport Node.ofLabel
  rw [List.cons_append, List.map_cons, List.map_append, List.map_map, List.map_map]
  exact .cons (declaration.target.denotes hindent)
    (List.rel_append (denotes_option (Import.denotes hindent) _)
      (denotes_option (Label.denotes hindent) _))

end Trees

mutual

/-- An item shows all that stands below it.  The recursion is that of the tree. -/
theorem Item.denotes {indent : Text} (hindent : ∀ c ∈ indent, isBlank c = true) (item : Item) :
    Denotes indent (.node (.item item)) item.datum := by
  cases item with
  | comment text span =>
      exact denotes_node hindent (heads_dropLast_leaf (by decide +kernel) text) .nil
  | blockComment text span =>
      exact denotes_node hindent (heads_dropLast_leaf (by decide +kernel) text) .nil
  | importing i => exact i.denotes hindent
  | method m => exact m.denotes hindent
  | declaration d =>
      exact denotes_node hindent (heads_head (by decide +kernel)) (d.denotes hindent)
  | container d mark children =>
      have hmissing : List.Forall₂ (Denotes indent)
          (if mark.closed then [] else [.leaf "(MISSING \"\x7d\")".toList])
          (if mark.closed then [] else [.field "MISSING" ['\x7d']]) := by
        have hwritten : "(MISSING \"\x7d\")".toList = leaf "MISSING" ['\x7d'] := by
          decide +kernel
        rw [hwritten]
        split
        · exact .nil
        · exact .cons (denotes_leaf hindent (by decide +kernel) _) .nil
      have hblock : Denotes indent (.node (.block mark children)) _ :=
        denotes_node hindent (heads_head (by decide +kernel : Plain "block"))
          (List.rel_append (Item.denotesAll hindent children) hmissing)
      exact denotes_node hindent (heads_head (by decide +kernel))
        (List.rel_append (d.denotes hindent) (.cons hblock .nil))

/-- Items show all that stands below them, in order. -/
theorem Item.denotesAll {indent : Text} (hindent : ∀ c ∈ indent, isBlank c = true)
    (items : List Item) :
    List.Forall₂ (Denotes indent) (items.map fun item => .node (.item item)) (Item.data items) := by
  cases items with
  | nil => exact .nil
  | cons item others => exact .cons (item.denotes hindent) (Item.denotesAll hindent others)

end

/-- A document shows all its items. -/
theorem Document.denotes {indent : Text} (hindent : ∀ c ∈ indent, isBlank c = true)
    (document : Document) : Denotes indent (.node (.document document)) document.datum :=
  denotes_node hindent (heads_head (by decide +kernel))
    (Item.denotesAll hindent document.children)

/-- A dump is read to its end as one expression, that of the tree, whatever texts the tree holds
and however its levels are indented. -/
theorem Document.read_dump (indent : Text) (hindent : ∀ c ∈ indent, isBlank c = true)
    (document : Document) : Datum.read? (document.dump indent) = some [document.datum] := by
  have htakes := document.denotes hindent 0 0 []
  rw [List.replicate_zero, List.append_nil, linesFrom] at htakes
  exact Datum.read?_of_takes htakes

/-- Parentheses, quotes and line breaks inside texts do not disturb the lists around them. -/
theorem Document.read_dump_unclosed :
    (∀ c ∈ ['\t', ' '], isBlank c = true) ∧
      Datum.read? (Document.dump ['\t', ' ']
        ⟨[.container ⟨.expression ⟨⟨['(', '\x22', '\n'], none, [], .nowhere⟩, [], [], .nowhere⟩,
            false, none, none, .nowhere⟩ ⟨false, .nowhere⟩ [.comment [')', '\\'] .nowhere]],
          .nowhere⟩) =
        some [.group "source_file" [.group "declaration" [
          .group "expression" [.field "identifier" ['(', '\x22', '\n']],
          .group "block" [.field "comment" [')', '\\'], .field "MISSING" ['\x7d']]]]] :=
  have hindent : ∀ c ∈ ['\t', ' '], isBlank c = true := List.all_eq_true.mp (by decide)
  ⟨hindent, Document.read_dump ['\t', ' '] hindent _⟩

end DiagramText
