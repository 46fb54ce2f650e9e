import DiagramText.Canonical
import DiagramText.Tree.Same

/-!
# Canonical source and spans

The printer looks at no span: trees that are the same up to spans have the same
canonical source (`Document.canonical_congr`).  Each node is printed as the node
without its spans is.
-/

namespace DiagramText

/-! ## Parts of a statement -/

@[simp] theorem Identifier.partSource_bare (identifier : Identifier) :
    identifier.bare.partSource = identifier.partSource := by
  cases identifier
  simp only [bare, partSource]

/-- A name is printed the same without spans. -/
@[simp] theorem Identifier.canonical_bare (identifier : Identifier) :
    identifier.bare.canonical = identifier.canonical := by
  have hfields : identifier.bare.fields = identifier.fields.map (·.bare) := by
    cases identifier
    simp only [bare, bareAll_eq_map]
  have hparts : (·.partSource) ∘ Identifier.bare = (·.partSource) := funext partSource_bare
  simp only [canonical, hfields, List.map_cons, List.map_map, partSource_bare, hparts]

theorem Expression.edges_bare (expression : Expression) :
    expression.bare.edges = expression.edges.map fun (origin, connection, identifier) =>
      (origin.bare, connection.bare, identifier.bare) := by
  simp only [edges, identifiers, bare, Identifier.bareAll_eq_map]
  rw [← List.map_cons, List.zip_map, List.zip_map]
  rfl

/-- An expression is printed the same without spans. -/
@[simp] theorem Expression.canonical_bare (expression : Expression) :
    expression.bare.canonical = expression.canonical := by
  have hfirst : expression.bare.first.canonical = expression.first.canonical :=
    Identifier.canonical_bare expression.first
  simp only [canonical, hfirst, edges_bare, List.flatMap_map, Identifier.canonical_bare]
  rfl

/-- A reference is printed the same without spans. -/
@[simp] theorem Reference.canonical_bare (reference : Reference) :
    reference.bare.canonical = reference.canonical := by
  simp only [canonical, bare, Expression.canonical_bare, Identifier.bareAll_eq_map,
    List.flatMap_map, Identifier.partSource_bare]

@[simp] theorem Target.canonical_bare (target : Target) : target.bare.canonical = target.canonical := by
  cases target with
  | expression e => exact e.canonical_bare
  | reference r => exact r.canonical_bare

/-- A label is printed the same without spans. -/
@[simp] theorem Label.canonical_bare (label : Label) : label.bare.canonical = label.canonical := by
  cases label with
  | scalar value raw => cases value <;> rfl
  | code | constraints => rfl

@[simp] theorem Label.isBareLiteral_bare (label : Label) :
    label.bare.isBareLiteral = label.isBareLiteral := by
  cases label with
  | scalar value raw => cases value <;> rfl
  | code | constraints => rfl

@[simp] theorem Argument.canonicalList_bare (arguments : List Argument) :
    Argument.canonicalList (arguments.map (·.bare)) = Argument.canonicalList arguments := by
  simp only [canonicalList, List.map_map]
  rfl

/-- A method is printed the same without spans. -/
@[simp] theorem Method.canonical_bare (method : Method) : method.bare.canonical = method.canonical := by
  obtain ⟨name, arguments, returns, span⟩ := method
  cases returns <;> simp [canonical, bare]

/-! ## Declarations and items -/

namespace Declaration

@[simp] theorem hasBareLiteral_bare (declaration : Declaration) :
    declaration.bare.hasBareLiteral = declaration.hasBareLiteral := by
  obtain ⟨target, hasColon, label, imported, span⟩ := declaration
  cases label with
  | none => rfl
  | some label => exact label.isBareLiteral_bare

@[simp] theorem showsBlock_bare (declaration : Declaration) :
    declaration.bare.showsBlock = declaration.showsBlock := by
  simp [showsBlock, bare]

@[simp] theorem headSource_bare (declaration : Declaration) :
    declaration.bare.headSource = declaration.headSource := by
  obtain ⟨target, hasColon, label, imported, span⟩ := declaration
  cases label <;> simp [headSource, bare]

/-- A declaration is printed the same without spans. -/
@[simp] theorem canonical_bare (declaration : Declaration) :
    declaration.bare.canonical = declaration.canonical := by
  have hhead := declaration.headSource_bare
  obtain ⟨target, hasColon, label, imported, span⟩ := declaration
  cases imported with
  | none =>
      simp only [canonical, hhead]
      simp [bare]
  | some imported =>
      simp only [canonical, bare, Option.map_some, Target.canonical_bare]
      rfl

@[simp] theorem openingSource_bare (declaration : Declaration) :
    declaration.bare.openingSource = declaration.openingSource := by
  simp only [openingSource, headSource_bare, hasBareLiteral_bare]

end Declaration

namespace Item

@[simp] theorem commentSource?_bare (item : Item) : item.bare.commentSource? = item.commentSource? := by
  cases item <;> rfl

/-- Whether an item needs to be glued does not depend on spans. -/
@[simp] theorem needsGlue_bare (item : Item) : item.bare.needsGlue = item.needsGlue := by
  cases item with
  | declaration d => exact d.hasBareLiteral_bare
  | _ => rfl

/-- The items that are shown in a block are the same up to their spans. -/
@[simp] theorem shownChildren_bare (item : Item) :
    item.bare.shownChildren = item.shownChildren.map (·.bare) := by
  cases item with
  | container d mark children =>
      simp only [shownChildren, bare, Declaration.showsBlock_bare, bareAll_eq_map]
      split <;> rfl
  | _ => rfl

/-- The first line of an item is the same without spans. -/
@[simp] theorem firstLine_bare (item : Item) : item.bare.firstLine = item.firstLine := by
  cases item with
  | method m => exact m.canonical_bare
  | declaration d => exact d.canonical_bare
  | container d mark children =>
      simp [firstLine, bare, bareAll_eq_map]
  | comment | blockComment | importing => rfl

end Item

/-! ## Documents -/

namespace Canonical

/-- The scope without the spans of its items. -/
def Scope.bare (scope : Scope) : Scope :=
  (scope.1.map (·.bare), scope.2)

@[simp] theorem bare_scope (items : List Item) (level : Nat) :
    Scope.bare (items, level) = (items.map (·.bare), level) := rfl

/-- The printer writes the same lines from a stack without spans. -/
theorem linesFrom_bare (indent : Text) (stack : List Scope) (glue : Bool) (lines : List Text) :
    linesFrom indent (stack.map Scope.bare) glue lines = linesFrom indent stack glue lines := by
  -- the turns of the printer: the end, the end of a scope, an item with children, one that has to be
  -- followed (the last, before a comment, before another item), and one on a line of its own
  fun_induction linesFrom indent stack glue lines with
  | case1 glue lines => rw [List.map_nil, linesFrom]
  | case2 glue lines level outer ih =>
      rw [List.map_cons, bare_scope, List.map_nil, linesFrom]
      exact ih
  | case3 glue older item items level outer lines hshown ih =>
      rw [List.map_cons, bare_scope, linesFrom.eq_def]
      simpa [hshown, lines] using ih
  | case4 glue older item level outer lines hshown hneeds ih =>
      rw [List.map_cons, bare_scope, linesFrom.eq_def]
      simpa [hshown, hneeds, lines] using ih
  | case5 glue older item level outer lines hshown hneeds next others comment hcomment ih =>
      rw [List.map_cons, bare_scope, linesFrom.eq_def]
      simpa [hshown, hneeds, hcomment, lines] using ih
  | case6 glue older item level outer lines hshown hneeds next others hcomment ih =>
      rw [List.map_cons, bare_scope, linesFrom.eq_def]
      simpa [hshown, hneeds, hcomment, lines] using ih
  | case7 glue older item items level outer lines hshown hfree ih =>
      rw [List.map_cons, bare_scope, linesFrom.eq_def]
      simpa [hshown, hfree, lines] using ih

end Canonical

/-- Documents that are the same up to spans have the same canonical source. -/
theorem Document.canonical_congr {a b : Document} (h : a.bare = b.bare) (indent : Text) :
    a.canonical indent = b.canonical indent := by
  have hlines (document : Document) : document.bare.canonical indent = document.canonical indent := by
    have hstack := Canonical.linesFrom_bare indent [(document.children, 0)] false []
    simp only [canonical, bare, Item.bareAll_eq_map]
    exact congrArg (·.reverse.flatMap (· ++ ['\n'])) hstack
  rw [← hlines a, h, hlines b]

end DiagramText
