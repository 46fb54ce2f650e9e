import DiagramText.Canonical
import DiagramText.Proofs.Text.Slice
import DiagramText.Proofs.Lexeme.RespellText

/-!
# Nodes that show their source

The span of a node says where in the source it stands.  Here is what it has to
say (`Node.Faithful`): it lies within the source, in it lie the spans of the
parts of the node that are no comments, one after another, and where nothing is
below the node, or nothing that is not a comment, the source reads as the node
does.

A node is sourced if that holds of it and of all nodes below it
(`Node.Sourced`).  Whether it does is seen from a row of spans: those of the
parts, and perhaps others, between the start and the end of the node's own
(`Node.Sourced.of_row`).
-/

namespace DiagramText

/-- One of the first list, one of the second, and so on, with what is left of the longer one. -/
def alternate {α : Type} : List α → List α → List α
  | [], others => others
  | values, [] => values
  | value :: values, other :: others => value :: other :: alternate values others

/-- Nothing is lost where two lists alternate. -/
theorem alternate_perm {α : Type} (values others : List α) :
    (alternate values others).Perm (values ++ others) := by
  fun_induction alternate values others with
  | case1 others => exact .refl _
  | case2 values => rw [List.append_nil]
  | case3 value values other others ih =>
      rw [List.cons_append]
      exact (((ih.cons other).trans List.perm_middle.symm).cons value)

/-- A first value and then pairs: their second halves stand between the first ones. -/
theorem alternate_map {α β : Type} (f g : β → α) (first : α) (pairs : List β) :
    alternate (first :: pairs.map f) (pairs.map g) =
      first :: pairs.flatMap fun pair => [g pair, f pair] := by
  induction pairs generalizing first with
  | nil => rfl
  | cons pair pairs ih =>
      rw [List.map_cons, List.map_cons, alternate, ih]
      rfl

namespace Node

/-- The parts of a node in the order of the source: the names of an expression alternate with its
connections. -/
def parts : Node → List Node
  | .expression e => alternate (e.identifiers.map .identifier) (e.connections.map .connection)
  | node => node.children

/-- The parts that are no comments. -/
def solids (node : Node) : List Node :=
  node.parts.filter (!·.isComment)

/-- The text of the source at the span of the node is what the node stands for: a leaf as it is
written, a name without fields in its quotes, an import and a comment as they are printed, but for
the line break after a line comment, and a code block what its parts are taken from. -/
def Spelled (source : Text) : Node → Prop
  | .item (.comment text span) => ∃ ends ∈ lineEnds, span.text source = lineCommentSource text ++ ends
  | .item (.blockComment text span) => span.text source = blockCommentSource text
  | .item (.importing i) => i.span.text source = i.canonical
  | .identifier i => i.fields = [] → i.span.text source = i.partSource
  | .connection c => c.span.text source = c.op
  | .label (.scalar _ raw span) => span.text source = raw
  | .label (.code parts span) => CodeParts.ofText? (span.text source) = some (.ok parts)
  | _ => True

/-- What the span of a node has to say about the node and the source. -/
structure Faithful (source : Text) (node : Node) : Prop where
  within : node.span.Within source
  inside : ∀ part ∈ node.children, part.isComment = false → part.span.Inside node.span
  ordered : (node.solids.map span).Pairwise fun a b => a.stop ≤ b.start
  spelled : node.Spelled source

/-- The spans of the node and of all nodes below it are faithful. -/
inductive Sourced (source : Text) : Node → Prop
  | intro {node : Node} (faithful : node.Faithful source)
      (below : ∀ part ∈ node.children, Sourced source part) : Sourced source node

variable {source : Text} {node : Node}

/-- The order of the source is an order of the parts. -/
theorem parts_perm (node : Node) : node.parts.Perm node.children := by
  cases node with
  | expression e => exact alternate_perm _ _
  | _ => exact .refl _

namespace Sourced

theorem faithful (h : node.Sourced source) : node.Faithful source := by
  cases h with
  | intro faithful _ => exact faithful

theorem forall_children (h : node.Sourced source) : ∀ part ∈ node.children, part.Sourced source := by
  cases h with
  | intro _ below => exact below

/-- All spans of a walk from a sourced node are faithful. -/
theorem walk (h : node.Sourced source) : ∀ part ∈ node.walk, part.Faithful source :=
  fun part hpart => (forall_walk (fun _ => forall_children) h part hpart).faithful

/-- Where the parts of a node stand in a row in its span it is sourced. -/
theorem of_row (within : node.span.Within source)
    (row : Span.Row node.span.start (node.solids.map Node.span) node.span.stop)
    (below : ∀ part ∈ node.children, part.Sourced source) (spelled : node.Spelled source) :
    node.Sourced source := by
  refine ⟨⟨within, ?_, row.pairwise, spelled⟩, below⟩
  intro part hpart hsolid
  have hmem : part ∈ node.solids :=
    List.mem_filter.mpr ⟨node.parts_perm.mem_iff.mpr hpart, by simp [hsolid]⟩
  obtain ⟨hstart, _, hstop⟩ := row.mem part.span (List.mem_map_of_mem hmem)
  exact ⟨hstart, hstop⟩

/-- A node without parts is sourced if its own span is right. -/
theorem leaf (hnone : node.children = []) (within : node.span.Within source)
    (spelled : node.Spelled source) : node.Sourced source := by
  have hparts : node.parts = [] := List.perm_nil.mp (hnone ▸ node.parts_perm)
  apply of_row within _ _ spelled
  · rw [solids, hparts]
    exact .nil within.le
  · rw [hnone]
    exact fun _ hpart => absurd hpart List.not_mem_nil

/-- A node from the start of the first of a row of spans to the end of the last is sourced, where its
parts are and stand among the spans; it stands in their place. -/
theorem of_cover {first : Span} {others : List Span} {start stop : Int}
    (row : Span.Row start (first :: others) stop)
    (within : ∀ span ∈ first :: others, span.Within source)
    (hspan : node.span = first.cover (others.getLast?.getD first))
    (hparts : (node.parts.map Node.span).Sublist (first :: others))
    (below : ∀ part ∈ node.children, part.Sourced source) (spelled : node.Spelled source) :
    Span.Row start [node.span] stop ∧ node.Sourced source := by
  obtain ⟨hrow, hstart, hstop⟩ := row.cover
  rw [← hspan] at hrow hstop
  have hlast : others.getLast?.getD first ∈ first :: others := by
    cases hlast : others.getLast? with
    | none => exact List.mem_cons_self
    | some last => exact List.mem_cons_of_mem _ (List.mem_of_getLast? hlast)
  have hwithin : node.span.Within source := by
    rw [hspan]
    exact (within first List.mem_cons_self).cover (within _ hlast)
  have hfirst : node.span.start = first.start := by rw [hspan, Span.start_cover]
  rw [← hfirst] at hrow hstart
  exact ⟨.single hstart hwithin.le hstop,
    .of_row hwithin (hrow.sublist ((List.filter_sublist.map _).trans hparts)) below spelled⟩

end Sourced

end Node

end DiagramText
