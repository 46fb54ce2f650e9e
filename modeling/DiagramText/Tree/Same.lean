import DiagramText.Tree

/-!
# Trees up to spans

Two trees are the same when they differ in spans only. `bare` forgets the spans of a tree, and
`same` decides the question by walking both trees at once; `Document.same_iff` says that the two
agree.
-/

namespace DiagramText

mutual

/-- The name without its spans. -/
def Identifier.bare : Identifier → Identifier
  | ⟨name, quote, fields, _⟩ => ⟨name, quote, Identifier.bareAll fields, .nowhere⟩

/-- The names without their spans. -/
def Identifier.bareAll : List Identifier → List Identifier
  | [] => []
  | identifier :: others => identifier.bare :: Identifier.bareAll others

end

/-- The connection without its span. -/
def Connection.bare (connection : Connection) : Connection :=
  { connection with span := .nowhere }

/-- The expression without its spans. -/
def Expression.bare (expression : Expression) : Expression :=
  ⟨expression.first.bare, Identifier.bareAll expression.others,
    expression.connections.map (·.bare), .nowhere⟩

/-- The reference without its spans. -/
def Reference.bare (reference : Reference) : Reference :=
  ⟨reference.expression.bare, reference.index, Identifier.bareAll reference.fields, .nowhere⟩

/-- The target without its spans. -/
def Target.bare : Target → Target
  | .expression e => .expression e.bare
  | .reference r => .reference r.bare

/-- The label without its span. -/
def Label.bare : Label → Label
  | .code parts _ => .code parts .nowhere
  | .scalar value raw _ => .scalar value raw .nowhere
  | .constraints names _ => .constraints names .nowhere

/-- The import without its span. -/
def Import.bare (imported : Import) : Import :=
  { imported with span := .nowhere }

/-- The argument without its span. -/
def Argument.bare (argument : Argument) : Argument :=
  { argument with span := .nowhere }

/-- The method without its spans. -/
def Method.bare (method : Method) : Method :=
  ⟨method.name.bare, method.arguments.map (·.bare), method.returns.map (·.map (·.bare)), .nowhere⟩

/-- The declaration without its spans. -/
def Declaration.bare (declaration : Declaration) : Declaration :=
  ⟨declaration.target.bare, declaration.hasColon, declaration.label.map (·.bare),
    declaration.imported.map (·.bare), .nowhere⟩

/-- The mark of a block without its span. -/
def BlockMark.bare (mark : BlockMark) : BlockMark :=
  { mark with span := .nowhere }

mutual

/-- The item without its spans. -/
def Item.bare : Item → Item
  | .comment text _ => .comment text .nowhere
  | .blockComment text _ => .blockComment text .nowhere
  | .importing i => .importing i.bare
  | .method m => .method m.bare
  | .declaration d => .declaration d.bare
  | .container d mark children => .container d.bare mark.bare (Item.bareAll children)

/-- The items without their spans. -/
def Item.bareAll : List Item → List Item
  | [] => []
  | item :: others => item.bare :: Item.bareAll others

end

/-- The document without its spans. -/
def Document.bare (document : Document) : Document :=
  ⟨Item.bareAll document.children, .nowhere⟩

theorem Identifier.bareAll_eq_map (identifiers : List Identifier) :
    Identifier.bareAll identifiers = identifiers.map (·.bare) := by
  induction identifiers with
  | nil => rfl
  | cons _ _ ih => simp [Identifier.bareAll, ih]

theorem Item.bareAll_eq_map (items : List Item) : Item.bareAll items = items.map (·.bare) := by
  induction items with
  | nil => rfl
  | cons _ _ ih => simp [Item.bareAll, ih]

mutual

/-- Whether two names are the same up to spans. -/
def Identifier.same : Identifier → Identifier → Bool
  | ⟨name, quote, fields, _⟩, ⟨name', quote', fields', _⟩ =>
    name == name' && quote == quote' && Identifier.sameAll fields fields'

/-- Whether the names of two lists are the same up to spans. -/
def Identifier.sameAll : List Identifier → List Identifier → Bool
  | [], [] => true
  | a :: as, b :: bs => a.same b && Identifier.sameAll as bs
  | _, _ => false

end

/-- Whether two expressions are the same up to spans. -/
def Expression.same (a b : Expression) : Bool :=
  a.first.same b.first && Identifier.sameAll a.others b.others &&
    a.connections.map (·.op) == b.connections.map (·.op)

/-- Whether two references are the same up to spans. -/
def Reference.same (a b : Reference) : Bool :=
  a.expression.same b.expression && a.index == b.index && Identifier.sameAll a.fields b.fields

/-- Whether two targets are the same up to spans. -/
def Target.same : Target → Target → Bool
  | .expression a, .expression b => a.same b
  | .reference a, .reference b => a.same b
  | _, _ => false

/-- Whether two methods are the same up to spans. -/
def Method.same (a b : Method) : Bool :=
  a.name.same b.name && a.arguments.map (·.bare) == b.arguments.map (·.bare) &&
    a.returns.map (·.map (·.bare)) == b.returns.map (·.map (·.bare))

/-- Whether two declarations are the same up to spans, whatever blocks they have. -/
def Declaration.same (a b : Declaration) : Bool :=
  a.target.same b.target && a.hasColon == b.hasColon &&
    a.label.map (·.bare) == b.label.map (·.bare) &&
    a.imported.map (·.bare) == b.imported.map (·.bare)

mutual

/-- Whether two items are the same up to spans. -/
def Item.same : Item → Item → Bool
  | .comment a _, .comment b _ => a == b
  | .blockComment a _, .blockComment b _ => a == b
  | .importing a, .importing b => a.bare == b.bare
  | .method a, .method b => a.same b
  | .declaration a, .declaration b => a.same b
  | .container a mark as, .container b mark' bs =>
    a.same b && mark.closed == mark'.closed && Item.sameAll as bs
  | _, _ => false

/-- Whether the items of two lists are the same up to spans. -/
def Item.sameAll : List Item → List Item → Bool
  | [], [] => true
  | a :: as, b :: bs => a.same b && Item.sameAll as bs
  | _, _ => false

end

/-- Whether two documents are the same up to spans. -/
def Document.same (a b : Document) : Bool :=
  Item.sameAll a.children b.children

mutual

theorem Identifier.same_iff : (a b : Identifier) → (a.same b = true ↔ a.bare = b.bare)
  | ⟨name, quote, fields, _⟩, ⟨name', quote', fields', _⟩ => by
    simp [Identifier.same, Identifier.bare, Identifier.sameAll_iff fields fields', and_assoc]

theorem Identifier.sameAll_iff : (as bs : List Identifier) →
    (Identifier.sameAll as bs = true ↔ Identifier.bareAll as = Identifier.bareAll bs)
  | [], [] => by simp [Identifier.sameAll]
  | [], _ :: _ => by simp [Identifier.sameAll, Identifier.bareAll]
  | _ :: _, [] => by simp [Identifier.sameAll, Identifier.bareAll]
  | a :: as, b :: bs => by
    simp [Identifier.sameAll, Identifier.bareAll, Identifier.same_iff a b,
      Identifier.sameAll_iff as bs]

end

theorem Connection.map_op_eq_iff (as bs : List Connection) :
    as.map (·.op) = bs.map (·.op) ↔ as.map (·.bare) = bs.map (·.bare) := by
  induction as generalizing bs with
  | nil => cases bs <;> simp
  | cons a as ih => cases bs <;> simp [Connection.bare, ih]

theorem Expression.same_iff (a b : Expression) : a.same b = true ↔ a.bare = b.bare := by
  simp [Expression.same, Expression.bare, Identifier.same_iff, Identifier.sameAll_iff,
    Connection.map_op_eq_iff, and_assoc]

theorem Reference.same_iff (a b : Reference) : a.same b = true ↔ a.bare = b.bare := by
  simp [Reference.same, Reference.bare, Expression.same_iff, Identifier.sameAll_iff, and_assoc]

theorem Target.same_iff (a b : Target) : a.same b = true ↔ a.bare = b.bare := by
  cases a <;> cases b <;> simp [Target.same, Target.bare, Expression.same_iff, Reference.same_iff]

theorem Method.same_iff (a b : Method) : a.same b = true ↔ a.bare = b.bare := by
  simp [Method.same, Method.bare, Identifier.same_iff, and_assoc]

theorem Declaration.same_iff (a b : Declaration) : a.same b = true ↔ a.bare = b.bare := by
  simp [Declaration.same, Declaration.bare, Target.same_iff, and_assoc]

mutual

theorem Item.same_iff : (a b : Item) → (a.same b = true ↔ a.bare = b.bare)
  | .container a mark as, .container b mark' bs => by
    simp [Item.same, Item.bare, Declaration.same_iff, Item.sameAll_iff as bs, BlockMark.bare,
      and_assoc]
  | .comment .., b => by cases b <;> simp [Item.same, Item.bare]
  | .blockComment .., b => by cases b <;> simp [Item.same, Item.bare]
  | .importing _, b => by cases b <;> simp [Item.same, Item.bare]
  | .method _, b => by cases b <;> simp [Item.same, Item.bare, Method.same_iff]
  | .declaration _, b => by cases b <;> simp [Item.same, Item.bare, Declaration.same_iff]
  | .container .., .comment .. => by simp [Item.same, Item.bare]
  | .container .., .blockComment .. => by simp [Item.same, Item.bare]
  | .container .., .importing _ => by simp [Item.same, Item.bare]
  | .container .., .method _ => by simp [Item.same, Item.bare]
  | .container .., .declaration _ => by simp [Item.same, Item.bare]

theorem Item.sameAll_iff : (as bs : List Item) →
    (Item.sameAll as bs = true ↔ Item.bareAll as = Item.bareAll bs)
  | [], [] => by simp [Item.sameAll]
  | [], _ :: _ => by simp [Item.sameAll, Item.bareAll]
  | _ :: _, [] => by simp [Item.sameAll, Item.bareAll]
  | a :: as, b :: bs => by
    simp [Item.sameAll, Item.bareAll, Item.same_iff a b, Item.sameAll_iff as bs]

end

/-- The two trees are the same exactly when nothing is left to tell them apart without spans. -/
theorem Document.same_iff (a b : Document) : a.same b = true ↔ a.bare = b.bare := by
  simp [Document.same, Document.bare, Item.sameAll_iff]

end DiagramText
