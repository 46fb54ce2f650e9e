import DiagramText.Tree.Node

/-!
# Walking a tree

`Node.outline` visits a node and all below it, parents before their children, and says how deep
each stands. The nodes still to visit are on a stack; every visit takes one node off the stack and
puts its parts on, so the total weight of the stack, which counts nodes, goes down by one each
time (`Node.weight_eq`).
-/

namespace DiagramText

mutual

/-- How many nodes a name makes. -/
def Identifier.weight : Identifier → Nat
  | ⟨_, _, fields, _⟩ => 1 + Identifier.weights fields

/-- How many nodes some names make. -/
def Identifier.weights : List Identifier → Nat
  | [] => 0
  | identifier :: others => identifier.weight + Identifier.weights others

end

/-- How many nodes an expression makes. -/
def Expression.weight (e : Expression) : Nat :=
  1 + (Identifier.weights e.identifiers + e.connections.length)

/-- How many nodes a reference makes. -/
def Reference.weight (r : Reference) : Nat :=
  1 + (r.expression.weight + Identifier.weights r.fields)

/-- How many nodes a target makes. -/
def Target.weight : Target → Nat
  | .expression e => e.weight
  | .reference r => r.weight

/-- How many nodes a method makes. -/
def Method.weight (m : Method) : Nat :=
  1 + (m.name.weight + m.arguments.length + (m.returns.getD []).length)

/-- How many nodes a declaration makes, its block apart. -/
def Declaration.weight (d : Declaration) : Nat :=
  1 + (d.target.weight + d.label.toList.length + d.imported.toList.length)

mutual

/-- How many nodes an item makes. -/
def Item.weight : Item → Nat
  | .comment .. => 1
  | .blockComment .. => 1
  | .importing _ => 1
  | .method m => m.weight
  | .declaration d => d.weight
  | .container d _ children => d.weight + (1 + Item.weights children)

/-- How many nodes some items make. -/
def Item.weights : List Item → Nat
  | [] => 0
  | item :: others => item.weight + Item.weights others

end

namespace Node

/-- How many nodes there are from a node down. -/
def weight : Node → Nat
  | .document d => 1 + Item.weights d.children
  | .item i => i.weight
  | .block _ children => 1 + Item.weights children
  | .argument _ => 1
  | .expression e => e.weight
  | .reference r => r.weight
  | .identifier i => i.weight
  | .connection _ => 1
  | .label _ => 1

/-- How many nodes there are from some nodes down. -/
def weights : List Node → Nat
  | [] => 0
  | node :: others => node.weight + weights others

@[simp] theorem weights_nil : weights [] = 0 := rfl

@[simp] theorem weights_cons (node : Node) (nodes : List Node) :
    weights (node :: nodes) = node.weight + weights nodes := rfl

@[simp] theorem weights_append (nodes others : List Node) :
    weights (nodes ++ others) = weights nodes + weights others := by
  induction nodes with
  | nil => simp
  | cons _ _ ih => simp [ih, Nat.add_assoc]

@[simp] theorem weights_map_item (items : List Item) :
    weights (items.map .item) = Item.weights items := by
  induction items with
  | nil => rfl
  | cons _ _ ih => simp [Item.weights, weight, ih]

@[simp] theorem weights_map_identifier (identifiers : List Identifier) :
    weights (identifiers.map .identifier) = Identifier.weights identifiers := by
  induction identifiers with
  | nil => rfl
  | cons _ _ ih => simp [Identifier.weights, weight, ih]

/-- Nodes without parts weigh as much as there are of them. -/
theorem weights_map_leaf {α : Type} {leaf : α → Node} (h : ∀ a, (leaf a).weight = 1)
    (values : List α) : weights (values.map leaf) = values.length := by
  induction values with
  | nil => rfl
  | cons _ _ ih => simp [h, ih, Nat.add_comm]

@[simp] theorem weight_target (target : Target) : target.node.weight = target.weight := by
  cases target <;> rfl

@[simp] theorem weight_identifier (i : Identifier) : (identifier i).weight = i.weight := rfl

@[simp] theorem weight_expression (e : Expression) : (expression e).weight = e.weight := rfl

@[simp] theorem weight_block (mark : BlockMark) (items : List Item) :
    (block mark items).weight = 1 + Item.weights items := rfl

/-- A node weighs one more than its parts. -/
theorem weight_eq (node : Node) : node.weight = 1 + weights node.children := by
  have label : ∀ l : List Label, weights (l.map .label) = l.length := weights_map_leaf fun _ => rfl
  have argument : ∀ l : List Argument, weights (l.map .argument) = l.length :=
    weights_map_leaf fun _ => rfl
  have connection : ∀ l : List Connection, weights (l.map .connection) = l.length :=
    weights_map_leaf fun _ => rfl
  have imported : ∀ l : List Import, weights (l.map fun i => .item (.importing i)) = l.length :=
    weights_map_leaf fun _ => by simp [weight, Item.weight]
  cases node with
  | item item =>
    show item.weight = _
    cases item <;>
      simp [Item.weight, children, ofLabel, ofImport, Method.weight, Declaration.weight, label,
        argument, imported] <;> omega
  | identifier identifier =>
    cases identifier
    simp [children, Identifier.weight]
  | expression e => show e.weight = _; simp [children, Expression.weight, connection]
  | reference r => show r.weight = _; simp [children, Reference.weight]
  | document d => show 1 + Item.weights d.children = _; simp [children]
  | block mark items => simp [children]
  | argument a => rfl
  | connection c => rfl
  | label l => rfl

/-- The nodes on a stack of nodes and below them, in order, with their depths. -/
def outlineFrom : List (Nat × Node) → List (Nat × Node)
  | [] => []
  | (depth, node) :: pending =>
    (depth, node) :: outlineFrom (node.children.map (depth + 1, ·) ++ pending)
termination_by stack => weights (stack.map (·.2))
decreasing_by simp [weight_eq node, Function.comp_def]

/-- A node and all below it, parents before their children, with their depths. -/
def outline (node : Node) : List (Nat × Node) :=
  outlineFrom [(0, node)]

/-- A node and all below it, parents before their children. -/
def walk (node : Node) : List Node :=
  node.outline.map (·.2)

/-- Whether the node stands below the items and holds no label: a target, an argument, or a part of one. -/
def isPhrase : Node → Bool
  | .argument _ => true
  | .expression _ => true
  | .reference _ => true
  | .identifier _ => true
  | .connection _ => true
  | _ => false

/-- What holds of all phrases, imports and labels, of the items that the node holds, and of its block,
holds of its parts. -/
theorem forall_children {P : Node → Prop} {node : Node}
    (phrase : ∀ part : Node, part.isPhrase = true → P part)
    (imported : ∀ i, P (.item (.importing i)))
    (label : ∀ item l, node = .item item → item.label? = some l → P (.label l))
    (block : ∀ d mark items, node = .item (.container d mark items) → P (.block mark items))
    (document : ∀ d, node = .document d → ∀ child ∈ d.children, P (.item child))
    (within : ∀ mark items, node = .block mark items → ∀ child ∈ items, P (.item child)) :
    ∀ part ∈ node.children, P part := by
  have htarget : ∀ target : Target, P target.node := by
    intro target
    cases target <;> exact phrase _ rfl
  have himported : ∀ found, ∀ part ∈ ofImport found, P part :=
    fun _ => List.forall_mem_map.mpr fun i _ => imported i
  have hlabel : ∀ item, node = .item item → ∀ part ∈ ofLabel item.label?, P part :=
    fun item hitem => List.forall_mem_map.mpr fun l hl => label item l hitem (Option.mem_toList.mp hl)
  cases node with
  | document d => exact List.forall_mem_map.mpr (document d rfl)
  | block mark items => exact List.forall_mem_map.mpr (within mark items rfl)
  | item i =>
      cases i with
      | method m =>
          simp only [children, List.cons_append, List.forall_mem_cons, List.forall_mem_append,
            List.forall_mem_map]
          exact ⟨phrase _ rfl, fun _ _ => phrase _ rfl, fun _ _ => phrase _ rfl⟩
      | declaration d =>
          simp only [children, List.cons_append, List.forall_mem_cons, List.forall_mem_append]
          exact ⟨htarget d.target, hlabel _ rfl, himported d.imported⟩
      | container d mark items =>
          simp only [children, List.cons_append, List.forall_mem_cons, List.forall_mem_append]
          exact ⟨htarget d.target, hlabel _ rfl, block d mark items rfl, himported d.imported⟩
      | _ => simp [children]
  | expression e =>
      simp only [children, List.forall_mem_append, List.forall_mem_map]
      exact ⟨fun _ _ => phrase _ rfl, fun _ _ => phrase _ rfl⟩
  | reference r =>
      simp only [children, List.forall_mem_cons, List.forall_mem_map]
      exact ⟨phrase _ rfl, fun _ _ => phrase _ rfl⟩
  | identifier i => exact List.forall_mem_map.mpr fun _ _ => phrase _ rfl
  | argument a => simp [children]
  | connection c => simp [children]
  | label l => simp [children]

/-- What holds of the nodes on a stack and passes from a node to its parts holds of all nodes
below.  The induction is on the visits. -/
theorem forall_outlineFrom {P : Node → Prop} (hP : ∀ node, P node → ∀ part ∈ node.children, P part)
    (stack : List (Nat × Node)) (h : ∀ entry ∈ stack, P entry.2) :
    ∀ entry ∈ outlineFrom stack, P entry.2 := by
  fun_induction outlineFrom stack with
  | case1 => simp
  | case2 depth node pending ih =>
      rw [List.forall_mem_cons] at h ⊢
      refine ⟨h.1, ih ?_⟩
      rw [List.forall_mem_append, List.forall_mem_map]
      exact ⟨hP node h.1, h.2⟩

/-- What passes from a node to its parts holds of all nodes below it. -/
theorem forall_walk {P : Node → Prop} (hP : ∀ node, P node → ∀ part ∈ node.children, P part)
    {node : Node} (h : P node) : ∀ part ∈ node.walk, P part := by
  intro part hpart
  obtain ⟨entry, hentry, rfl⟩ := List.mem_map.mp hpart
  exact forall_outlineFrom hP [(0, node)] (List.forall_mem_singleton.mpr h) entry hentry

/-- What a check finds among the nodes of a walk, when it is told for each node what the check finds
there and below.  The induction is on the visits. -/
theorem filter_outlineFrom {p : Node → Bool} {found : Node → List Node}
    (hfound : ∀ node, found node = (if p node then [node] else []) ++ node.children.flatMap found)
    (stack : List (Nat × Node)) :
    ((outlineFrom stack).map (·.2)).filter p = (stack.map (·.2)).flatMap found := by
  fun_induction outlineFrom stack with
  | case1 => rfl
  | case2 depth node pending ih =>
      rw [List.map_cons, List.map_cons, List.flatMap_cons, List.filter_cons, ih, hfound node]
      split <;> simp [Function.comp_def]

/-- What a check finds in a walk. -/
theorem filter_walk {p : Node → Bool} {found : Node → List Node}
    (hfound : ∀ node, found node = (if p node then [node] else []) ++ node.children.flatMap found)
    (node : Node) : node.walk.filter p = found node := by
  rw [walk, outline, filter_outlineFrom hfound]
  simp

end Node

end DiagramText
