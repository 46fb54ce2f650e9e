import DiagramText.Proofs.Reader.Log
import DiagramText.Proofs.Sourced

/-!
# Spans on the way of a reader

As a reader moves on it passes what it consumes, one after another.
`Reader.Threads` says so of a list of spans: they stand in a row between the
place where the reader was and the place where it is.  Spans that are passed on
two ways in turn are passed on the whole way, and where the parts of a node are
passed on the way from the first span of its own to the last the node is sourced
(`Reader.Threads.node`).
-/

namespace DiagramText.Reader

variable {source : Text} {r r' r'' : Reader} {mode : Mode} {token : Token} {spans others : List Span}

/-- On the way from the one reader to the other stand the spans, one after another. -/
structure Threads (source : Text) (r : Reader) (spans : List Span) (r' : Reader) : Prop where
  moves : Moves source r r'
  row : Span.Row r.place spans r'.place
  within : ∀ span ∈ spans, span.Within source

namespace Threads

theorem of_moves (h : Moves source r r') : Threads source r [] r' :=
  ⟨h, .nil h.le, by simp⟩

theorem sound (h : Threads source r spans r') : r'.Sound :=
  h.moves.sound

theorem placed (h : Threads source r spans r') : r'.Placed source :=
  h.moves.placed

theorem append (h : Threads source r spans r') (h' : Threads source r' others r'') :
    Threads source r (spans ++ others) r'' :=
  ⟨h.moves.trans h'.moves, h.row.append h'.row, List.forall_mem_append.mpr ⟨h.within, h'.within⟩⟩

/-- Nothing needs to be said of what is passed last, or of what is passed first. -/
theorem trans (h : Threads source r spans r') (h' : Moves source r' r'') :
    Threads source r spans r'' := by
  have hall := h.append (of_moves h')
  rwa [List.append_nil] at hall

theorem after (h : Moves source r r') (h' : Threads source r' spans r'') :
    Threads source r spans r'' :=
  (of_moves h).append h'

/-- Some of the spans may be left out. -/
theorem sublist (h : Threads source r spans r') (hsub : others.Sublist spans) :
    Threads source r others r' :=
  ⟨h.moves, h.row.sublist hsub, fun span hspan => h.within span (hsub.subset hspan)⟩

/-- A node whose parts are passed on the way from its start to its end is passed in their place. -/
theorem node {first : Span} (h : Threads source r (first :: others) r') (node : Node)
    (hspan : node.span = first.cover (others.getLast?.getD first))
    (hparts : (node.parts.map Node.span).Sublist (first :: others))
    (below : ∀ part ∈ node.children, part.Sourced source) (spelled : node.Spelled source) :
    Threads source r [node.span] r' ∧ node.Sourced source := by
  obtain ⟨hrow, hsourced⟩ := Node.Sourced.of_cover h.row h.within hspan hparts below spelled
  exact ⟨⟨h.moves, hrow, List.forall_mem_singleton.mpr hsourced.faithful.within⟩, hsourced⟩

end Threads

theorem Spots.within (h : Spots source mode r token r') : token.span.Within source :=
  h.shows.within h.sound h.skims.placed

/-- A token that is spotted and consumed is passed. -/
theorem Spots.threads (h : Spots source mode r token r') :
    Threads source r [token.span] r'.consumed := by
  have hwithin := h.within
  have hconsumed : Threads source r' [token.span] r'.consumed := by
    refine ⟨h.shows.moves_consumed h.sound h.skims.placed, ?_, List.forall_mem_singleton.mpr hwithin⟩
    rw [h.shows.place_consumed h.sound, ← (h.shows.span h.sound).1]
    exact .single (Int.le_refl _) hwithin.le (Int.le_refl _)
  exact .after h.moves hconsumed

/-- The text at the span of a token that is spotted is its text. -/
theorem Spots.text_eq (h : Spots source mode r token r') : token.span.text source = token.text :=
  (h.shows.cutFrom h.sound h.skims.placed).text_eq

/-- A token that is consumed is passed, be it the end of the source. -/
theorem advance_threads (hr : r.Sound) (hplaced : r.Placed source) (mode : Mode) :
    Ends (advance mode) r (fun token r' => Threads source r [token.span] r') fun _ _ => True := by
  unfold advance
  apply (peek_spots hr hplaced mode).bind
  intro token r₁ h
  by_cases hkind : token.kind = .eof
  · simp only [hkind, ne_eq, not_true_eq_false, if_false, ends_pure]
    have hwithin := h.within
    obtain ⟨hstart, hstop⟩ := h.shows.span h.sound
    have hnone : token.text.length = 0 := by
      have htext := congrArg List.length (h.shows.text_eq_append h.sound)
      rw [(h.shows.eof_iff h.sound).mp hkind, List.length_append, List.length_nil] at htext
      omega
    refine .after h.moves ⟨⟨h.sound, h.skims.placed, Int.le_refl _, List.Subset.refl _⟩, ?_, ?_⟩
    · exact .single (Int.le_of_eq hstart.symm) hwithin.le (by omega)
    · exact List.forall_mem_singleton.mpr hwithin
  · simp only [ne_eq, hkind, not_false_eq_true, if_true, ends_bind, ends_modify, ends_pure]
    exact h.threads

/-- An expected mark is passed. -/
theorem expect_threads (hr : r.Sound) (hplaced : r.Placed source) (mode : Mode) (mark : Char) :
    Ends (expect mode [mark]) r (fun token r' => Threads source r [token.span] r') fun _ _ => True := by
  apply (expect_spots hr hplaced mode mark).imp
  intro token r' ⟨r₁, h, _, hconsumed⟩
  rw [hconsumed]
  exact h.threads

/-- A mark that has to stand ahead is passed before what follows. -/
theorem ends_mark_threads {α : Type} {mark : Char} {error : Token → SyntaxError}
    {k : Token → Parser α} {post : α → Reader → Prop} (hr : r.Sound) (hplaced : r.Placed source)
    (hk : ∀ token r', Threads source r [token.span] r' → Ends (k token) r' post fun _ _ => True) :
    Ends (peek mode >>= fun token =>
      if (!token.isPunct mark) = true then fail (error token) >>= fun (_ : PUnit) =>
        advance mode >>= fun _ => k token
      else advance mode >>= fun _ => k token) r post fun _ _ => True := by
  apply (peek_spots hr hplaced mode).bind
  intro token r₁ h
  apply ends_guard
  · exact fun _ => trivial
  · intro hmark
    have hkind := Token.kind_ne_eof_of_isPunct (by simpa using hmark)
    exact ends_bind.mpr (h.shows.advance_spec hkind (hk token _ h.threads))

/-- What the steps of a repetition pass the repetition passes. -/
theorem many_threads {α : Type} {step : Parser (Option α)} (spansOf : α → List Span) {P : α → Prop}
    (hstep : ∀ r : Reader, r.Sound → r.Placed source →
      Ends step r (fun found r' => Threads source r (found.toList.flatMap spansOf) r' ∧
        ∀ a, found = some a → P a) fun _ _ => True)
    (hr : r.Sound) (hplaced : r.Placed source) :
    Ends (many step) r (fun found r' => Threads source r (found.flatMap spansOf) r' ∧
      ∀ a ∈ found, P a) fun _ _ => True := by
  refine (many_relates (R := fun r found r' =>
    Threads source r (found.flatMap spansOf) r' ∧ ∀ a ∈ found, P a) ?_ hr hplaced).imp
    fun _ _ h => h.2
  intro r hr hplaced
  apply (hstep r hr hplaced).imp
  intro found r' ⟨hthreads, hfound⟩
  refine ⟨hthreads.moves, ?_, ?_⟩
  · intro hnone
    rw [hnone] at hthreads
    exact ⟨hthreads, by simp⟩
  · intro a hsome others r'' ⟨hlater, hothers⟩
    rw [hsome] at hthreads
    refine ⟨?_, List.forall_mem_cons.mpr ⟨hfound a hsome, hothers⟩⟩
    have hall := hthreads.append hlater
    simpa using hall

end DiagramText.Reader
