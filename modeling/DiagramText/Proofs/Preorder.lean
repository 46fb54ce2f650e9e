import Mathlib.Data.List.Basic
import DiagramText.Tree.Walk

/-!
# Walks in preorder

A walk keeps the nodes still to visit on a stack, those of all ancestors
together.  It comes to the same as the plain recursion: a node, then for each
of its parts in order the walk of that part (`Node.walk_preorder`).

The invariant is over whole stacks.  What a stack still has to visit is what
each node on it has to visit, one after another (`Node.outlineFrom_eq_flatMap`),
because a stack below another is not touched before that one is empty
(`Node.outlineFrom_append`).

A place in a tree is a path of numbers, which say at every step which of the
parts to take.  `Node.paths` lists the paths of a node in the order of the
recursion: they are all the paths there are (`Node.mem_paths`), in strictly
growing order (`Node.paths_sorted`), and the walk visits the nodes at their ends
(`Node.outline_eq_paths`).  So every place is visited once, and after all
places above it.
-/

namespace DiagramText.Node

/-! ## Induction -/

theorem weight_le_weights {part : Node} {nodes : List Node} (h : part ∈ nodes) :
    part.weight ≤ weights nodes := by
  induction nodes with
  | nil => cases h
  | cons node nodes ih => grind [weights_cons]

/-- The parts of a node weigh less than the node. -/
theorem weight_lt {node part : Node} (h : part ∈ node.children) : part.weight < node.weight := by
  have hle := weight_le_weights h
  rw [weight_eq node]
  omega

/-- What passes from the parts of a node to the node holds of all nodes. -/
theorem of_parts {P : Node → Prop} (step : ∀ node, (∀ part ∈ node.children, P part) → P node)
    (node : Node) : P node := by
  induction hweight : node.weight using Nat.strongRecOn generalizing node with
  | ind weight ih =>
      apply step
      intro part hpart
      exact ih part.weight (hweight ▸ weight_lt hpart) part rfl

/-! ## The stack -/

/-- The lower part of a stack is visited after the upper. -/
theorem outlineFrom_append (stack pending : List (Nat × Node)) :
    outlineFrom (stack ++ pending) = outlineFrom stack ++ outlineFrom pending := by
  fun_induction outlineFrom stack with
  | case1 => rfl
  | case2 depth node stack ih =>
      rw [List.cons_append, outlineFrom, ← List.append_assoc, ih, List.cons_append]

/-- A visit that is made so much deeper. -/
def lowered (depth : Nat) (visit : Nat × Node) : Nat × Node :=
  (depth + visit.1, visit.2)

/-- A stack further down is visited in the same way. -/
theorem outlineFrom_lowered (depth : Nat) (stack : List (Nat × Node)) :
    outlineFrom (stack.map (lowered depth)) = (outlineFrom stack).map (lowered depth) := by
  fun_induction outlineFrom stack with
  | case1 => simp [outlineFrom]
  | case2 first node stack ih =>
      have hparts : (node.children.map (first + 1, ·)).map (lowered depth) =
          node.children.map (depth + first + 1, ·) := by
        rw [List.map_map]
        rfl
      rw [List.map_append, hparts] at ih
      rw [List.map_cons, List.map_cons, ← ih, lowered, outlineFrom]

/-- What a stack has to visit: node by node, each at its depth. -/
theorem outlineFrom_eq_flatMap (stack : List (Nat × Node)) :
    outlineFrom stack = stack.flatMap fun entry => entry.2.outline.map (lowered entry.1) := by
  induction stack with
  | nil => simp [outlineFrom]
  | cons entry stack ih =>
      have hfirst : outlineFrom [entry] = entry.2.outline.map (lowered entry.1) :=
        outlineFrom_lowered entry.1 [(0, entry.2)]
      rw [← List.singleton_append, outlineFrom_append, ih, hfirst]
      rfl

/-- A node is visited first, and then each of its parts with all below it, one step deeper. -/
theorem outline_eq (node : Node) :
    node.outline = (0, node) :: node.children.flatMap fun part => part.outline.map (lowered 1) := by
  rw [outline, outlineFrom, List.append_nil, outlineFrom_eq_flatMap, List.flatMap_map]

theorem walk_eq (node : Node) : node.walk = node :: node.children.flatMap walk := by
  have hparts : (fun part => (part.outline.map (lowered 1)).map (·.2)) = walk := by
    funext part
    rw [List.map_map]
    rfl
  rw [walk, outline_eq, List.map_cons, List.map_flatMap, hparts]

/-! ## Places -/

/-- The node at the end of a path. -/
def at? : Node → List Nat → Option Node
  | node, [] => some node
  | node, place :: path => node.children[place]?.bind (·.at? path)

/-- The paths from a node down: to the node itself, then through each of its parts in order. -/
def paths (node : Node) : List (List Nat) :=
  [] :: node.children.attach.zipIdx.flatMap fun entry => (paths entry.1).map (entry.2 :: ·)
termination_by node.weight
decreasing_by exact weight_lt entry.1.2

theorem paths_eq (node : Node) :
    node.paths =
      [] :: node.children.zipIdx.flatMap fun entry => entry.1.paths.map (entry.2 :: ·) := by
  have hparts : node.children.zipIdx = node.children.attach.zipIdx.map (Prod.map (·.1) id) := by
    rw [← List.zipIdx_map, List.attach_map_subtype_val]
  rw [paths, hparts, List.flatMap_map]
  rfl

theorem nil_mem_paths (node : Node) : [] ∈ node.paths := by
  rw [paths_eq]
  exact List.mem_cons_self

/-- A path that takes a step goes on from the part that the step takes. -/
theorem cons_mem_paths {node : Node} {place : Nat} {path : List Nat} :
    place :: path ∈ node.paths ↔
      ∃ part, node.children[place]? = some part ∧ path ∈ part.paths := by
  rw [paths_eq]
  simp only [List.mem_cons, List.cons_ne_nil, false_or, List.mem_flatMap, List.mem_map,
    List.cons.injEq, Prod.exists, List.mem_zipIdx_iff_getElem?]
  grind

/-- Exactly the paths that lead to a node are listed. -/
theorem mem_paths {node : Node} {path : List Nat} :
    path ∈ node.paths ↔ (node.at? path).isSome = true := by
  induction path generalizing node with
  | nil => simp [nil_mem_paths, at?]
  | cons place path ih =>
      rw [cons_mem_paths, at?]
      cases node.children[place]? with
      | none => simp
      | some part => simp [ih]

/-- Every path is less than those listed after it: it leads further up, or further to the left. -/
theorem paths_sorted (node : Node) : node.paths.Pairwise (· < ·) := by
  induction node using of_parts with
  | step node ih =>
      have hplaces : node.children.zipIdx.Pairwise fun entry other => entry.2 < other.2 := by
        rw [← List.pairwise_map, List.zipIdx_map_snd]
        exact List.pairwise_lt_range'
      rw [paths_eq, List.pairwise_cons, List.pairwise_flatMap]
      refine ⟨?_, ?_, ?_⟩
      · intro path hpath
        obtain ⟨entry, _, hentry⟩ := List.mem_flatMap.mp hpath
        obtain ⟨rest, _, rfl⟩ := List.mem_map.mp hentry
        exact List.nil_lt_cons _ _
      · intro entry hentry
        have hpart := ih entry.1 (List.mem_of_getElem? (List.mem_zipIdx_iff_getElem?.mp hentry))
        exact hpart.map _ fun path other hlt => List.cons_lt_cons_self.mpr hlt
      · refine hplaces.imp fun {entry other} hlt path hpath later hlater => ?_
        obtain ⟨rest, _, rfl⟩ := List.mem_map.mp hpath
        obtain ⟨rest', _, rfl⟩ := List.mem_map.mp hlater
        exact List.cons_lt_cons_iff.mpr (.inl hlt)

/-- What a walk visits at the end of a path. -/
def visitAt (node : Node) (path : List Nat) : Nat × Option Node :=
  (path.length, node.at? path)

/-- Behind the first step of a path the rest of it leads down from the part. -/
theorem visitAt_cons {node part : Node} {place : Nat} (h : node.children[place]? = some part)
    (path : List Nat) :
    node.visitAt (place :: path) = Prod.map (1 + ·) id (part.visitAt path) := by
  simp [visitAt, at?, h, Nat.add_comm]

/-- The walk visits the nodes at the ends of the paths, each as deep as its path is long. -/
theorem outline_eq_paths (node : Node) :
    node.outline.map (Prod.map id some) = node.paths.map node.visitAt := by
  induction node using of_parts with
  | step node ih =>
      have hpart : ∀ entry ∈ node.children.zipIdx,
          (entry.1.paths.map (entry.2 :: ·)).map node.visitAt =
            (entry.1.outline.map (lowered 1)).map (Prod.map id some) := by
        intro entry hentry
        have hplace : node.children[entry.2]? = some entry.1 :=
          List.mem_zipIdx_iff_getElem?.mp hentry
        calc (entry.1.paths.map (entry.2 :: ·)).map node.visitAt
            = (entry.1.paths.map entry.1.visitAt).map (Prod.map (1 + ·) id) := by
              rw [List.map_map, List.map_map]
              exact List.map_congr_left fun path _ => visitAt_cons hplace path
          _ = (entry.1.outline.map (Prod.map id some)).map (Prod.map (1 + ·) id) := by
              rw [ih entry.1 (List.mem_of_getElem? hplace)]
          _ = (entry.1.outline.map (lowered 1)).map (Prod.map id some) := by
              rw [List.map_map, List.map_map]
              rfl
      calc node.outline.map (Prod.map id some)
          = (0, some node) :: (node.children.zipIdx.map (·.1)).flatMap fun part =>
              (part.outline.map (lowered 1)).map (Prod.map id some) := by
            rw [outline_eq, List.map_cons, List.map_flatMap, List.zipIdx_map_fst]
            rfl
        _ = (0, some node) :: node.children.zipIdx.flatMap fun entry =>
              (entry.1.paths.map (entry.2 :: ·)).map node.visitAt := by
            rw [List.flatMap_map, List.flatMap_congr hpart]
        _ = node.paths.map node.visitAt := by
            rw [paths_eq, List.map_cons, List.map_flatMap]
            rfl

theorem walk_eq_paths (node : Node) : node.walk.map some = node.paths.map node.at? := by
  have h := congrArg (List.map (·.2)) node.outline_eq_paths
  rw [List.map_map, List.map_map] at h
  rw [walk, List.map_map]
  exact h

/-- A path is not less than one that leads to a place above it. -/
theorem not_lt_of_isPrefix {path above : List Nat} (h : above <+: path) : ¬path < above := by
  obtain ⟨rest, rfl⟩ := h
  induction above with
  | nil => exact List.not_lt_nil _
  | cons place above ih => rwa [List.cons_append, List.cons_lt_cons_self]

/-- A walk is the recursive one: first the node, then for each of its parts in order the walk of the
part.  It visits the nodes at the ends of all paths down, each place once, and none after a place
below it. -/
theorem walk_preorder (node : Node) :
    node.walk = node :: node.children.flatMap walk ∧
      node.walk.map some = node.paths.map node.at? ∧
      (∀ path, path ∈ node.paths ↔ (node.at? path).isSome = true) ∧
      node.paths.Nodup ∧
      node.paths.Pairwise fun path later => ¬later <+: path := by
  have hsorted := node.paths_sorted
  have honce : node.paths.Nodup := by
    apply hsorted.imp
    intro path later hlt heq
    subst heq
    exact List.lt_irrefl path hlt
  have hparents : node.paths.Pairwise fun path later => ¬later <+: path := by
    apply hsorted.imp
    intro path later hlt habove
    exact not_lt_of_isPrefix habove hlt
  exact ⟨node.walk_eq, node.walk_eq_paths, fun path => mem_paths, honce, hparents⟩

end DiagramText.Node
