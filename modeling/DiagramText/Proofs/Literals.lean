import DiagramText.Proofs.Items
import DiagramText.Proofs.Reprint

/-!
# What follows a literal

A number or a boolean is a literal only where a blank, a semicolon or the end of
the source follows it.  So the label of a declaration that is one is followed by
one of these (`Label.Apart`), and a free text that reads like one is followed by
something else: with comments kept, by a comment of its scope or by the brace
that closes its block (`Item.Glued`).  The printer relies on both
(`Document.ofText_delimited`).
-/

namespace DiagramText

open Grammar Reader

variable {source : Text} {config : Config}

/-! ## Where a literal ends -/

namespace Mode

open Recogniser

/-- What finds numbers and booleans looks for the end of a literal. -/
theorem literal_of_recogniser : ∀ recogniser ∈ Mode.label.recognisers,
    (∃ kind, kind ≠ .number ∧ kind ≠ .boolean ∧ OfKind kind recogniser) ∨
      ∃ kind length, recogniser = .ofLength kind (literalLength length) := by
  simp only [recognisers, shared, List.cons_append, List.nil_append, List.forall_mem_cons,
    List.not_mem_nil, false_implies, implies_true, and_true]
  refine ⟨?_, ?_, ?_, ?_, ?_, ?_, ?_, .inr ⟨_, _, rfl⟩, .inr ⟨_, _, rfl⟩, ?_⟩
  · exact .inl ⟨.terminator, by decide, by decide, ofKind_ofLength⟩
  · exact .inl ⟨.comment, by decide, by decide, ofKind_ofLength⟩
  · exact .inl ⟨.blockComment, by decide, by decide, ofKind_blockComment⟩
  · exact .inl ⟨.quoted, by decide, by decide, ofKind_quotedText⟩
  · exact .inl ⟨.importRef, by decide, by decide, ofKind_ofLength⟩
  · exact .inl ⟨.punct, by decide, by decide, ofKind_ofLength⟩
  · exact .inl ⟨.codeBlock, by decide, by decide, ofKind_codeBlock⟩
  · exact .inl ⟨.text, by decide, by decide, ofKind_ofLength⟩

/-- A number or a boolean is scanned only where a literal may end. -/
theorem isLiteralEnd_of_scan {s : Text} {lexeme : Lexeme} (h : Mode.label.scan s = .ok lexeme)
    (hkind : lexeme.kind = .number ∨ lexeme.kind = .boolean) :
    isLiteralEnd (s.drop lexeme.length) = true := by
  have hs : s ≠ [] := by
    rintro rfl
    rw [← Except.ok.inj h] at hkind
    rcases hkind with hkind | hkind <;> cases hkind
  obtain ⟨recogniser, hmem, hfound⟩ := exists_of_firstOf ((scan_eq_ok hs).mp h)
  rcases literal_of_recogniser recogniser hmem with ⟨kind, hnumber, hboolean, hof⟩ | ⟨kind, length, rfl⟩
  · rw [hof s lexeme hfound] at hkind
    exact (hkind.elim hnumber hboolean).elim
  · obtain ⟨rfl, hsome⟩ := ofLength_eq_some.mp hfound
    unfold literalLength at hsome ⊢
    split at hsome
    · next hend =>
        rw [if_pos hend]
        exact hend
    · exact absurd rfl hsome

end Mode

/-- A number or a boolean that was read is followed by what ends a literal. -/
theorem Token.ReadFrom.isLiteralEnd {token : Token} (h : token.ReadFrom source .label)
    (hkind : token.kind = .number ∨ token.kind = .boolean) :
    isLiteralEnd (source.drop token.span.stop.toNat) = true := by
  obtain ⟨cursor, hon, htoken⟩ := h
  obtain ⟨_, hstop, _⟩ := span_of_token htoken
  have hend := Mode.isLiteralEnd_of_scan (Cursor.scan_of_token htoken).1 hkind
  rw [hon.rest, List.drop_drop] at hend
  have hplace : token.span.stop.toNat = cursor.position.offset + token.text.length := by omega
  rwa [hplace]

/-- A number or a boolean is followed in the source by a blank, a semicolon, or the end. -/
def Label.Apart (source : Text) : Label → Prop
  | .scalar value _ span =>
    value.isLiteral = true → DiagramText.isLiteralEnd (source.drop span.stop.toNat) = true
  | _ => True

theorem Label.ReadFrom.apart {label : Label} (h : label.ReadFrom source) : label.Apart source := by
  cases label with
  | scalar value raw span =>
      intro hliteral
      obtain ⟨token, htoken, hkind, rfl⟩ := h hliteral
      exact htoken.isLiteralEnd hkind
  | _ => trivial

/-! ## The tree -/

/-- The label of the item is apart from what follows it, and whatever has to be followed by something on
its line is, among the items in its block. -/
structure Item.Delimited (source : Text) (item : Item) : Prop where
  label : ∀ label, item.label? = some label → label.Apart source
  glued : Item.Glued true item.within

namespace Document

/-- All items of a document that was read with its comments are delimited. -/
theorem delimited_of_ofText (hkeep : config.keepComments = true) {document : Document}
    (h : ofText config source = .ok document) :
    ∀ item ∈ document.children, item.Each (·.Delimited source) := by
  have htidy := tidy_of_ofText hkeep h
  have hitems : ∀ item ∈ document.children, item.Tidy → item.Each (·.Delimited source) := by
    refine forall_children (P := fun item => item.Tidy → item.Each (·.Delimited source)) ?_ ?_ ?_ h
    · intro token _
      have hwithin := Item.within_commentItem token
      exact .of_within hwithin ⟨by simp [Item.label?_commentItem], hwithin ▸ trivial⟩
    · intro item hread _
      obtain ⟨r, _, _, hstatement⟩ := id hread
      have hwithin := Item.within_of_isLeaf ((statement_leaf r).ok hstatement _ rfl)
      refine .of_within hwithin ⟨fun label hlabel => ?_, hwithin ▸ trivial⟩
      exact (hread.label label hlabel).apart
    · intro block mark hopened hwithin hblock
      obtain ⟨heach, hglued⟩ := hblock.row
      rw [List.append_nil] at heach hglued
      refine .intro ⟨fun label hlabel => (hopened.label label hlabel).apart, ?_⟩ ?_
      · rwa [block.within_item]
      · rw [block.within_item]
        exact fun item hmem => hwithin item hmem (heach item hmem)
  exact fun item hmem => hitems item hmem (htidy.each item hmem)

/-- When comments are kept, a declaration without a block whose label is free text that reads as a number
or a boolean is followed in its scope by a comment, or is the last item of a block, and never of the
document; and a label that is a number or a boolean is followed in the source by a blank, a semicolon, or
the end. -/
theorem ofText_delimited {maxDepth : Int} {document : Document}
    (h : ofText ⟨maxDepth, true⟩ source = .ok document) :
    (Item.Glued false document.children ∧
      ∀ mark items, .block mark items ∈ (Node.document document).walk → Item.Glued true items) ∧
      ∀ label, .label label ∈ (Node.document document).walk → label.Apart source := by
  have himport : ∀ imported, (Item.importing imported).Delimited source := fun _ =>
    ⟨by simp [Item.label?], trivial⟩
  obtain ⟨hblocks, hlabels⟩ := walk_each himport (delimited_of_ofText rfl h)
  refine ⟨⟨(tidy_of_ofText rfl h).glued, fun mark items hblock => ?_⟩, fun label hlabel => ?_⟩
  · obtain ⟨_, hitem⟩ := hblocks mark items hblock
    exact hitem.glued
  · obtain ⟨_, hitem, hfound⟩ := hlabels label hlabel
    exact hitem.label label hfound

/-- In a source with texts that read as literals before a comment and before a brace, and with
literals. -/
theorem ofText_delimited_texts :
    ∃ document, ofText ⟨1, true⟩ "a: 1#b\nc: \x7bd: true\x7d\ne: 2; f: -0.5".toList = .ok document ∧
      (Item.Glued false document.children ∧
        ∀ mark items, .block mark items ∈ (Node.document document).walk → Item.Glued true items) ∧
        ∀ label, .label label ∈ (Node.document document).walk →
          label.Apart "a: 1#b\nc: \x7bd: true\x7d\ne: 2; f: -0.5".toList := by
  obtain ⟨document, hdocument⟩ := exists_ok_of_isOk
    (x := ofText ⟨1, true⟩ "a: 1#b\nc: \x7bd: true\x7d\ne: 2; f: -0.5".toList) (by decide +kernel)
  exact ⟨document, hdocument, ofText_delimited hdocument⟩

end Document

end DiagramText
