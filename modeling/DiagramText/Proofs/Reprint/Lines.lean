import DiagramText.Proofs.Completion
import DiagramText.Proofs.Concatenation
import DiagramText.Proofs.Reprint.Statement

/-!
# Lines that are read one after the other

Each line of a canonical source, read as a source of its own, takes the scopes it
is read in to other scopes (`Takes`): it adds an item, opens a block, or closes
one.  What the lines come to one after the other, their joined source comes to
(`outcome_taken`), since a line break ends whatever stands on a line.
-/

namespace DiagramText

open Grammar Reader

namespace Grammar

variable {config : Config} {r : Reader} {scopes before after : Scopes} {line : Text}

/-- Whatever scopes the line is read in, it takes those that are like the first to scopes like the
second. -/
def Takes (config : Config) (line : Text) (before after : Scopes) : Prop :=
  ∀ (r : Reader) (scopes : Scopes), r.At line → scopes.bare = before.bare →
    ∃ T, Comes config ⟨r, scopes⟩ T ∧ T.scopes.bare = after.bare

/-- Blanks before a line do not matter. -/
theorem Takes.indent (h : Takes config line before after) {blanks : Text}
    (hblanks : blanks.all isInlineBlank = true) : Takes config (blanks ++ line) before after :=
  fun r scopes hr hscopes => h r scopes (hr.congr (Mode.unindent_append hblanks line)) hscopes

/-! ## Ends of lines -/

/-- Where looking ahead comes to the end, the remarks it passes are placed. -/
theorem comes_end {remarks : List Item} {ends : Bool} {lexeme : Lexeme} (hr : r.Sound)
    (hfinds : Mode.declaration.Finds r.text remarks ends lexeme []) (scopes : Scopes) :
    ∃ T, Comes config ⟨r, scopes⟩ T ∧
      T.scopes.bare = scopes.bare.add (kept config (r.remarks ++ remarks)) := by
  obtain ⟨token, r', hpeek, hsees⟩ := peek_of_finds hr hfinds
  obtain ⟨_, _, htext, hremarks, _⟩ := hsees.of_finds hfinds
  refine ⟨_, .stop hr hpeek ((hsees.shows.eof_iff hsees.sound).mpr htext), ?_⟩
  rw [bare_settled, hremarks]

/-- At the end of a line the remarks that were passed are placed. -/
theorem comes_nil (hr : r.Sound) (htext : r.text = []) (scopes : Scopes) :
    ∃ T, Comes config ⟨r, scopes⟩ T ∧ T.scopes.bare = scopes.bare.add (kept config r.remarks) := by
  have hfinds : Mode.declaration.Finds r.text [] false ⟨.eof, 0⟩ [] := by
    rw [htext]
    exact Mode.finds_nil
  obtain ⟨T, hcomes, hT⟩ := comes_end hr hfinds scopes
  exact ⟨T, hcomes, by rw [hT, List.append_nil]⟩

/-- A closing brace at the end of a line closes the innermost block. -/
theorem takes_brace (hblocks : before.blocks ≠ []) :
    Takes config ['\x7d'] before (before.pop .nowhere) := by
  intro r scopes hr hscopes
  have hopen : scopes.blocks ≠ [] := by
    intro hnone
    have hlength := Scopes.length_blocks_of_bare hscopes
    rw [hnone] at hlength
    exact hblocks (List.length_eq_zero_iff.mp hlength.symm)
  have hcuts : Mode.declaration.Cuts ['\x7d'] .punct ['\x7d'] [] := .of_scan (x := ['\x7d']) rfl rfl
  have hfinds : Mode.declaration.Finds r.text [] false ⟨.punct, 1⟩ (braces (0 + 1)) := hr.finds hcuts
  obtain ⟨r', closing, hsound, htext, hremarks, hturn⟩ :=
    turn_brace config hr.sound hr.remarks hfinds hopen
  obtain ⟨T, hcomes, hT⟩ := comes_nil hsound htext (scopes.pop closing)
  refine ⟨T, .turn hr.sound hturn hcomes, ?_⟩
  rw [hT, hremarks, kept_nil, Scopes.add_nil]
  exact Scopes.bare_pop_congr hscopes _ _

/-! ## Statements -/

/-- Where a statement is read the turn puts it into the scopes. -/
theorem turn_states {s : Text} {post : Statement → Reader → Prop} (h : States s post) (hr : r.At s)
    (scopes : Scopes) :
    ∃ read r', post read r' ∧ turn config ⟨r, scopes⟩ = place config read ⟨r', scopes⟩ := by
  obtain ⟨kind, x, rest, hcuts, hlead⟩ := h.lead
  obtain ⟨token, r₁, hpeek, hsees⟩ := peek_of_finds hr.sound (hr.finds hcuts)
  obtain ⟨htoken, hat, _⟩ := hr.of_sees hcuts hsees
  obtain ⟨read, r', hread, hpost⟩ := (h.reads r₁ hat).exists_ok
  refine ⟨read, r', hpost, ?_⟩
  have hsettled : settled config r₁ scopes = ⟨r₁, scopes⟩ := by
    rw [settled, hat.comments, commentItems_nil, Scopes.add_nil, emptied_eq hat.comments]
  have hother : token.kind ≠ .terminator ∧ token.kind ≠ .eof ∧ ¬ token.isPunct '\x7d' = true := by
    rcases hlead with rfl | rfl | rfl | ⟨rfl, rfl⟩ <;> simp [htoken.1, isPunct_eq htoken]
  rw [turn_of_peek hpeek, hsettled, act_statement hother.1 hother.2.1 hother.2.2]
  exact bind_ok (parsing_ok hread)

/-- After the line of an item the item stands in the scopes, and the turns go on from the end of the
line. -/
theorem comes_leaf {maxDepth : Int} {depth : Nat} {item : Item} {u rest : Text}
    {remarks : List Item} (h : item.Written maxDepth depth) (hleaf : item.isLeaf = true)
    (hu : item.LineEnd u remarks rest) (hr : r.At (item.firstLine ++ u)) (scopes : Scopes) :
    ∃ found r', found.bare = item.bare ∧ r'.Ended remarks rest ∧
      ∀ T, Comes config ⟨r', scopes.add [found]⟩ T → Comes config ⟨r, scopes⟩ T := by
  obtain ⟨read, r', ⟨⟨found, rfl, hfound⟩, hended⟩, hturn⟩ :=
    turn_states (states_leaf h hleaf hu) hr scopes
  exact ⟨found, r', hfound, hended, fun T hcomes => .turn hr.sound hturn hcomes⟩

/-- The line of an item adds the item, and the comment that ends it. -/
theorem takes_leaf {maxDepth : Int} {depth : Nat} {item : Item} {u : Text} {remarks : List Item}
    (hkeep : config.keepComments = true) (h : item.Written maxDepth depth)
    (hleaf : item.isLeaf = true) (hu : item.LineEnd u remarks [])
    (hafter : after.bare = before.bare.add (item.bare :: remarks)) :
    Takes config (item.firstLine ++ u) before after := by
  intro r scopes hr hscopes
  obtain ⟨found, r', hfound, hended, hcomes⟩ := comes_leaf h hleaf hu hr scopes
  obtain ⟨T, hlater, hT⟩ := comes_nil hended.sound hended.text (scopes.add [found])
  have hkept : kept config r'.remarks = remarks := by rw [hended.remarks, kept, if_pos hkeep]
  refine ⟨T, hcomes T hlater, ?_⟩
  rw [hT, hkept, Scopes.bare_add, hscopes, Scopes.add_add, hafter, List.map_singleton, hfound]
  rfl

/-- The line of an item that ends with a closing brace adds the item and closes the block. -/
theorem takes_leaf_brace {maxDepth : Int} {depth : Nat} {item : Item}
    (h : item.Written maxDepth depth) (hleaf : item.isLeaf = true) (hneeds : item.needsGlue = true)
    (hblocks : before.blocks ≠ []) :
    Takes config (item.firstLine ++ ['\x7d']) before ((before.add [item]).pop .nowhere) := by
  intro r scopes hr hscopes
  obtain ⟨found, r', hfound, hended, hcomes⟩ :=
    comes_leaf h hleaf (.brace hneeds) hr scopes
  have hadded : (scopes.add [found]).bare = (before.add [item]).bare := by
    rw [Scopes.bare_add, Scopes.bare_add, hscopes, List.map_singleton, List.map_singleton, hfound]
  have hopen : (before.add [item]).blocks ≠ [] := by
    intro hnone
    have hlength := Scopes.length_blocks_add before [item]
    rw [hnone] at hlength
    exact hblocks (List.length_eq_zero_iff.mp hlength.symm)
  obtain ⟨T, hlater, hT⟩ := takes_brace hopen r' _ hended.at hadded
  exact ⟨T, hcomes T hlater, hT⟩

/-- The line of a comment adds the comment. -/
theorem takes_remark (hkeep : config.keepComments = true) {item : Item} {x : Text} (h : IsRemark item)
    (hx : item.commentSource? = some x) : Takes config x before (before.add [item]) := by
  intro r scopes hr hscopes
  obtain ⟨later, hremarks, hends⟩ := (hr.ending (.remark h hx)).ends
  obtain ⟨lexeme, hfinds⟩ := hends.finds .declaration (.inl rfl)
  obtain ⟨T, hcomes, hT⟩ := comes_end hr.sound hfinds scopes
  refine ⟨T, hcomes, ?_⟩
  rw [hT, hremarks, kept, if_pos hkeep, hscopes, Scopes.bare_add]
  rfl

/-- The block that a declaration opens. -/
def opened (d : Declaration) : OpenBlock :=
  ⟨⟨.punct, ['\x7b'], .nowhere⟩, d.target, d.label, []⟩

/-- After the line on which a block is opened the block is the innermost one, and the turns go on
after the brace. -/
theorem comes_opening {d : Declaration} {w : Text} (h : d.Written) (hr : r.At (d.openingSource ++ w))
    (hdeep : (scopes.blocks.length + 1 : Nat) ≤ config.maxDepth) :
    ∃ block r', OpenBlock.bare block = (opened d).bare ∧ r'.At w ∧
      ∀ T, Comes config ⟨r', scopes.push block⟩ T → Comes config ⟨r, scopes⟩ T := by
  obtain ⟨read, r', ⟨⟨target, label, brace, rfl, htarget, hlabel, hbrace⟩, hat⟩, hturn⟩ :=
    turn_states (states_opening h w) hr scopes
  refine ⟨⟨brace, target, label, []⟩, r', ?_, hat, fun T hcomes => ?_⟩
  · have hsame : brace.bare = Token.bare ⟨.punct, ['\x7b'], .nowhere⟩ := Token.bare_eq_iff.mpr hbrace
    rw [OpenBlock.bare, OpenBlock.bare, opened, htarget, hlabel, hsame]
  · refine .turn hr.sound (hturn.trans ?_) hcomes
    have hopen := openBlock_eq config ⟨brace, target, label, []⟩ ⟨r', scopes⟩
    rw [if_neg (by simpa using hdeep)] at hopen
    exact bind_ok hopen

theorem takes_opening {d : Declaration} (h : d.Written)
    (hdeep : (before.blocks.length + 1 : Nat) ≤ config.maxDepth) :
    Takes config d.openingSource before (before.push (opened d)) := by
  intro r scopes hr hscopes
  rw [← Scopes.length_blocks_of_bare hscopes] at hdeep
  rw [← List.append_nil d.openingSource] at hr
  obtain ⟨block, r', hblock, hat, hcomes⟩ := comes_opening h hr hdeep
  obtain ⟨T, hlater, hT⟩ := comes_end hat.sound
    (hat.finds (Mode.cuts_nil .declaration)) (scopes.push block)
  refine ⟨T, hcomes T hlater, ?_⟩
  rw [hT, hat.remarks, List.append_nil, kept_nil, Scopes.add_nil, Scopes.bare_push, Scopes.bare_push,
    hscopes, hblock]

theorem takes_block_empty {d : Declaration} (h : d.Written)
    (hdeep : (before.blocks.length + 1 : Nat) ≤ config.maxDepth) :
    Takes config (d.openingSource ++ ['\x7d']) before ((before.push (opened d)).pop .nowhere) := by
  intro r scopes hr hscopes
  rw [← Scopes.length_blocks_of_bare hscopes] at hdeep
  obtain ⟨block, r', hblock, hat, hcomes⟩ := comes_opening h hr hdeep
  have hpushed : (scopes.push block).bare = (before.push (opened d)).bare := by
    rw [Scopes.bare_push, Scopes.bare_push, hscopes, hblock]
  obtain ⟨T, hlater, hT⟩ := takes_brace (List.cons_ne_nil _ _) r' _ hat hpushed
  exact ⟨T, hcomes T hlater, hT⟩

/-! ## One line after the other -/

/-- Lines, the newest first, that take the empty scopes to these ones after the other. -/
inductive Taken (config : Config) : List Text → Scopes → Prop
  | nil : Taken config [] .empty
  | line {lines : List Text} {line : Text} {before after : Scopes} (earlier : Taken config lines before)
      (takes : Takes config line before after) : Taken config (line :: lines) after

/-- The outcome depends on the scopes up to spans. -/
theorem outcome_congr (config : Config) (t : Text) {scopes scopes' : Scopes}
    (h : scopes'.bare = scopes.bare) :
    outcome config ⟨.ofText t, scopes'⟩ = outcome config ⟨.ofText t, scopes⟩ :=
  outcome_aligned ⟨sound_ofText t, sound_ofText t, by simp [tail], rfl, rfl⟩ h

/-- Lines that are joined come to what follows them, in the scopes that they take to.  The induction
is on the lines, from the newest back. -/
theorem outcome_taken {lines : List Text} (h : Taken config lines after) (t : Text)
    (hsome : outcome config ⟨.ofText t, after⟩ ≠ none) :
    outcome config ⟨.ofText (lines.reverse.flatMap (· ++ ['\n']) ++ t), .empty⟩ =
      outcome config ⟨.ofText t, after⟩ := by
  induction h generalizing t with
  | nil => rfl
  | @line lines line before after _ takes ih =>
      obtain ⟨T, hcomes, hT⟩ := takes (.ofText line) before (.ofText line) rfl
      have hsame := outcome_congr config t hT
      have hopens : Opens t := opens_of_outcome hsome
      have hline : outcome config ⟨.ofText (line ++ '\n' :: t), before⟩ =
          outcome config ⟨.ofText t, T.scopes⟩ :=
        outcome_continued hcomes (Document.lands_ofText line t) rfl (.inl hopens)
      rw [hsame] at hline
      have hjoined : (line :: lines).reverse.flatMap (· ++ ['\n']) ++ t =
          lines.reverse.flatMap (· ++ ['\n']) ++ (line ++ '\n' :: t) := by simp
      rw [hjoined, ih _ (by rwa [hline]), hline]

end Grammar

end DiagramText
