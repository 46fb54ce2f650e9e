import DiagramText.Lexeme.Mark
import DiagramText.Tree.Walk

/-!
# Canonical source

The canonical source of a tree: one item to a line, blocks indented, one space around connections
and after colons. A label text such as `1` would read as a number before a line break, so it stays
glued to the brace or the comment that follows it.

`Document.canonical` writes the lines with the scopes still to be printed on a stack.
-/

namespace DiagramText

namespace Identifier

/-- One part of a name, in its quotes if it has any. -/
def partSource (identifier : Identifier) : Text :=
  match identifier.quote with
  | none => identifier.name
  | some mark => identifier.name.quote mark.text

/-- The name with its fields. -/
def canonical (identifier : Identifier) : Text :=
  Text.join ['.'] ((identifier :: identifier.fields).map (·.partSource))

end Identifier

/-- The names with their connections, a space around each. -/
def Expression.canonical (expression : Expression) : Text :=
  expression.first.canonical ++ expression.edges.flatMap fun (_, connection, identifier) =>
    [' '] ++ connection.op ++ [' '] ++ identifier.canonical

/-- The expression in parentheses, the index in brackets, and the fields. -/
def Reference.canonical (reference : Reference) : Text :=
  ['('] ++ reference.expression.canonical ++ [')', '['] ++ Text.ofInt reference.index ++ [']'] ++
    reference.fields.flatMap fun field => ['.'] ++ field.partSource

/-- The source of a target. -/
def Target.canonical : Target → Text
  | .expression e => e.canonical
  | .reference r => r.canonical

/-- The source of a label: a quoted one anew from its value, any other literal as written. -/
def Label.canonical : Label → Text
  | .code parts _ => parts.style.opener ++ parts.language ++ parts.content ++ parts.style.closer
  | .constraints names _ => ['['] ++ Text.join [';', ' '] names ++ [']']
  | .scalar (.quoted value) _ _ => value.quote QuoteMark.double.text
  | .scalar _ raw _ => raw

/-- The at sign and the path, after three dots when the import is spread. -/
def Import.canonical (imported : Import) : Text :=
  (if imported.spread then "...@".toList else ['@']) ++ imported.path

/-- The name, and the type after it. -/
def Argument.canonical (argument : Argument) : Text :=
  match argument.type with
  | none => argument.name
  | some type => argument.name ++ [' '] ++ type

/-- The arguments in parentheses. -/
def Argument.canonicalList (arguments : List Argument) : Text :=
  ['('] ++ Text.join [',', ' '] (arguments.map (·.canonical)) ++ [')']

/-- The name and the arguments, and the results after a colon. -/
def Method.canonical (method : Method) : Text :=
  method.name.canonical ++ Argument.canonicalList method.arguments ++
    match method.returns with
    | none => []
    | some returns => [':', ' '] ++ Argument.canonicalList returns

/-- A line comment after its number sign. -/
def lineCommentSource (text : Text) : Text :=
  ['#'] ++ text

/-- A block comment between its fences. -/
def blockCommentSource (text : Text) : Text :=
  commentFence ++ text ++ commentFence

namespace Declaration

/-- Whether the label is text that would read as a number or a boolean before a blank. -/
def hasBareLiteral (declaration : Declaration) : Bool :=
  declaration.label.any (·.isBareLiteral)

/-- The target, a colon, and the label. -/
def headSource (declaration : Declaration) : Text :=
  declaration.target.canonical ++ [':'] ++
    match declaration.label with
    | none => []
    | some label => [' '] ++ label.canonical

/-- The declaration without any block. An import stands in place of the label. -/
def canonical (declaration : Declaration) : Text :=
  match declaration.imported with
  | some imported => declaration.target.canonical ++ [':', ' '] ++ imported.canonical
  | none => if declaration.hasColon then declaration.headSource else declaration.target.canonical

/-- Whether a block of the declaration is printed. -/
def showsBlock (declaration : Declaration) : Bool :=
  declaration.imported.isNone && declaration.hasColon

/-- The declaration up to the opening brace of its block, before which a bare literal takes no
blank. -/
def openingSource (declaration : Declaration) : Text :=
  declaration.headSource ++
    if declaration.hasBareLiteral then ['\x7b'] else [' ', '\x7b']

end Declaration

namespace Item

/-- The source of a comment, and nothing for any other item. -/
def commentSource? : Item → Option Text
  | .comment text _ => some (lineCommentSource text)
  | .blockComment text _ => some (blockCommentSource text)
  | _ => none

/-- The line an item begins with. -/
def firstLine : Item → Text
  | .comment text _ => lineCommentSource text
  | .blockComment text _ => blockCommentSource text
  | .importing i => i.canonical
  | .method m => m.canonical
  | .declaration d => d.canonical
  | .container d _ children =>
    if !d.showsBlock then d.canonical
    else if children.isEmpty then d.openingSource ++ ['\x7d']
    else d.openingSource

/-- The items that follow on lines of their own before the item is closed by a brace. -/
def shownChildren : Item → List Item
  | .container d _ children => if d.showsBlock then children else []
  | _ => []

/-- Whether the item has to be followed on its line by something that is no blank. -/
def needsGlue : Item → Bool
  | .declaration d => d.hasBareLiteral
  | _ => false

theorem weight_pos (item : Item) : 0 < item.weight := by
  cases item <;> simp only [Item.weight, Method.weight, Declaration.weight] <;> omega

theorem weights_shownChildren {item : Item} (h : item.shownChildren ≠ []) :
    1 + Item.weights item.shownChildren < item.weight := by
  cases item with
  | container d mark children =>
    simp only [shownChildren] at h ⊢
    split
    · simp only [Item.weight, Declaration.weight]; omega
    · simp_all
  | _ => simp [shownChildren] at h

end Item

namespace Canonical

/-- The indentation of a level. -/
def margin (indent : Text) (level : Nat) : Text :=
  (List.replicate level indent).flatten

/-- Adds to the end of the newest line. -/
def glueOnto (text : Text) : List Text → List Text
  | [] => [text]
  | line :: older => (line ++ text) :: older

/-- The brace that closes a block: on the newest line if that is needed, on its own otherwise. -/
def closeBrace (indent : Text) (level : Nat) (glue : Bool) (lines : List Text) : List Text :=
  if glue then glueOnto ['\x7d'] lines else (margin indent level ++ ['\x7d']) :: lines

/-- A scope to be printed: its items, and its level. -/
abbrev Scope := List Item × Nat

/-- How much there is to print. -/
def pending : List Scope → Nat
  | [] => 0
  | scope :: outer => 1 + Item.weights scope.1 + pending outer

/-- Prints the scopes on a stack after the lines so far, newest first. The newest line has to be
continued when `glue` is set. -/
def linesFrom (indent : Text) (stack : List Scope) (glue : Bool) (lines : List Text) :
    List Text :=
  match stack with
  | [] => lines
  | ([], level) :: outer =>
    linesFrom indent outer false
      (if level = 0 then lines else closeBrace indent (level - 1) glue lines)
  | (item :: items, level) :: outer =>
    let lines := (margin indent level ++ item.firstLine) :: lines
    if item.shownChildren ≠ [] then
      linesFrom indent ((item.shownChildren, level + 1) :: (items, level) :: outer) false lines
    else if item.needsGlue then
      match items with
      | [] => linesFrom indent (([], level) :: outer) true lines
      | next :: others =>
        match next.commentSource? with
        | some comment =>
          linesFrom indent ((others, level) :: outer) false (glueOnto comment lines)
        | none => linesFrom indent ((next :: others, level) :: outer) true lines
    else linesFrom indent ((items, level) :: outer) false lines
termination_by pending stack
decreasing_by
  all_goals simp only [pending, Item.weights]
  · omega
  · have := Item.weights_shownChildren ‹_›
    omega
  · have := item.weight_pos
    omega
  · have := item.weight_pos
    omega
  · have := item.weight_pos
    omega
  · have := item.weight_pos
    omega

end Canonical

/-- The canonical source of a document, each level of blocks indented once more. -/
def Document.canonical (indent : Text) (document : Document) : Text :=
  (Canonical.linesFrom indent [(document.children, 0)] false []).reverse.flatMap (· ++ ['\n'])

end DiagramText
