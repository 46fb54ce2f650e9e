import DiagramText.Proofs.Lexeme.Length
import DiagramText.Proofs.Text.Character

/-!
# Phrases stand on their own

A phrase that was found in a text is a phrase by itself
(`Phrase.Regular.extent_take`), nothing carries it on
(`Phrase.Regular.extent_drop`), and it is found again before any text that
neither carries it on nor changes where its elements begin
(`Phrase.extent_append`).  The first two rest on two laws: a gap is no element,
and where no element may begin none may begin when more text follows.

For names the second law says that a connection is seen from its first two
characters (`connectionLength_pos_iff`).
-/

namespace DiagramText

/-- A connection begins with an arrowhead and a dash, with two dashes, or with a dash and an
arrowhead. -/
theorem connectionLength_pos_iff {s : Text} :
    0 < connectionLength s ↔ ∃ rest, s = '<' :: '-' :: rest ∨ s = '-' :: '-' :: rest ∨
      s = '-' :: '>' :: rest := by
  unfold connectionLength
  split
  · next rest =>
      cases rest with
      | nil => simp
      | cons c rest =>
          by_cases hc : c = '-'
          · subst hc
            simp only [Text.run_cons, beq_self_eq_true, if_true, Nat.add_eq_zero_iff, Nat.one_ne_zero,
              and_false, if_false]
            refine ⟨fun _ => ⟨rest, .inl rfl⟩, fun _ => ?_⟩
            split <;> omega
          · simp [Text.run_cons, hc]
  · next rest =>
      cases rest with
      | nil => simp
      | cons c rest =>
          by_cases hc : c = '-'
          · subst hc
            simp only [Text.run_cons, beq_self_eq_true, if_true]
            refine ⟨fun _ => ⟨rest, .inr (.inl rfl)⟩, fun _ => ?_⟩
            split
            · omega
            · split <;> omega
          · by_cases hd : c = '>'
            · subst hd
              simp [Text.run_cons]
            · simp [Text.run_cons, hc, hd]
  · next h₁ h₂ =>
      simp only [Nat.lt_irrefl, false_iff]
      rintro ⟨rest, rfl | rfl | rfl⟩
      · exact h₁ _ rfl
      · exact h₂ _ rfl
      · exact h₂ _ rfl

namespace Phrase

/-- A gap is no element and escapes none, and no element begins where none begins in a shorter
text. -/
structure Regular (p : Phrase) : Prop where
  gap : ∀ c, p.isGap c = true → p.isBody c = false ∧ c ≠ '\\'
  barred : ∀ s t, s <+: t → p.isBarred s = true → p.isBarred t = true

/-- White space is not among marks that are no white space. -/
theorem not_contains_of_isBlank {marks : List Char} {c : Char} (hblank : isBlank c = true)
    (hmarks : marks.all (!isBlank ·) = true) : marks.contains c = false := by
  refine Bool.eq_false_iff.mpr fun hc => ?_
  have := List.all_eq_true.mp hmarks c (List.contains_iff_mem.mp hc)
  rw [hblank] at this
  cases this

theorem regular_namePhrase : namePhrase.Regular where
  gap c hc := by
    simp only [namePhrase, Bool.or_eq_true] at hc ⊢
    rcases hc with hc | hc
    · have hblank := isBlank_of_isInlineBlank hc
      simp only [not_isWord_of_isBlank hblank, Bool.false_or]
      refine ⟨not_contains_of_isBlank hblank (by decide), ?_⟩
      rintro rfl
      exact absurd hblank (by decide)
    · simp only [List.contains_cons, List.contains_nil, Bool.or_false, Bool.or_eq_true,
        beq_iff_eq] at hc
      rcases hc with rfl | rfl <;> decide
  barred s t hst hs := by
    simp only [namePhrase, decide_eq_true_eq] at hs ⊢
    obtain ⟨u, rfl⟩ := hst
    obtain ⟨rest, h⟩ := connectionLength_pos_iff.mp hs
    refine connectionLength_pos_iff.mpr ⟨rest ++ u, ?_⟩
    rcases h with rfl | rfl | rfl <;> simp

theorem regular_labelPhrase : labelPhrase.Regular where
  gap c hc := by
    have hblank := isBlank_of_isInlineBlank hc
    simp only [labelPhrase, not_isWord_of_isBlank hblank, Bool.false_or]
    refine ⟨not_contains_of_isBlank hblank (by decide), ?_⟩
    rintro rfl
    exact absurd hblank (by decide)
  barred _ _ _ hs := absurd hs (by simp [labelPhrase])

variable {p : Phrase}

/-- The count at a character: an escaped element, an element, a gap, or the end. -/
theorem extent_cons (p : Phrase) (pending : Nat) (c : Char) (s : Text) :
    p.extent pending (c :: s) =
      if c == '\\' && s.head?.any p.isEscapable then pending + 2 + p.extent 0 s.tail
      else if p.isBody c && !p.isBarred (c :: s) then pending + 1 + p.extent 0 s
      else if p.isGap c then p.extent (pending + 1) s
      else 0 := by
  cases s with
  | nil => by_cases hc : (p.isBody c && !p.isBarred [c]) = true <;> simp [extent, hc]
  | cons d s => simp [extent]

/-- Nothing is counted before a character that is neither an element nor a gap nor a backslash. -/
theorem extent_stop {c : Char} {s : Text} (hbody : p.isBody c = false) (hgap : p.isGap c = false)
    (hescape : c ≠ '\\') : p.extent 0 (c :: s) = 0 := by
  rw [extent_cons]
  simp [hbody, hgap, hescape]

/-- Nothing is counted before a character at which no element may begin and which is no gap. -/
theorem extent_barred {pending : Nat} {c : Char} {s : Text} (hbarred : p.isBarred (c :: s) = true)
    (hgap : p.isGap c = false) (hescape : c ≠ '\\') : p.extent pending (c :: s) = 0 := by
  rw [extent_cons]
  simp [hbarred, hgap, hescape]

/-- Where anything is counted, the gap before it is counted too. -/
theorem pending_lt_extent {pending : Nat} {s : Text} (h : p.extent pending s ≠ 0) :
    pending < p.extent pending s := by
  fun_induction extent p pending s <;> simp_all <;> omega

/-- The gap ahead only adds to what is counted after it. -/
theorem extent_eq_zero_iff {pending pending' : Nat} {s : Text} :
    p.extent pending s = 0 ↔ p.extent pending' s = 0 := by
  fun_induction extent p pending s generalizing pending' with
  | case1 => simp [extent]
  | case2 _ _ hc => simp [extent, hc]
  | case3 _ _ hc => simp [extent, hc]
  | case4 _ _ _ _ hc => simp [extent, hc]
  | case5 _ _ _ _ he hc => simp [extent, he, hc]
  | case6 _ _ _ _ he hb hc ih => simpa [extent, he, hb, hc] using ih
  | case7 _ _ _ _ he hb hc => simp [extent, he, hb, hc]

/-- What is counted is a phrase by itself.  The induction follows the count: an element stays one
when what follows is cut, and a gap stays a gap. -/
theorem Regular.extent_take (hp : p.Regular) {pending : Nat} {s : Text}
    (h : p.extent pending s ≠ 0) :
    p.extent pending (s.take (p.extent pending s - pending)) = p.extent pending s := by
  fun_induction extent p pending s with
  | case1 => exact absurd rfl h
  | case2 pending c hc => simp [extent, hc]
  | case3 => exact absurd rfl h
  | case4 pending c d rest hc ih =>
      have hn : pending + 2 + p.extent 0 rest - pending = p.extent 0 rest + 1 + 1 := by omega
      rw [hn]
      by_cases hrest : p.extent 0 rest = 0
      · simp [hrest, extent, hc]
      · have := ih hrest
        simp only [Nat.sub_zero] at this
        simp only [List.take_succ_cons, extent, hc, if_true, this]
  | case5 pending c d rest he hc ih =>
      have hn : pending + 1 + p.extent 0 (d :: rest) - pending = p.extent 0 (d :: rest) + 1 := by
        omega
      rw [hn]
      simp only [Bool.and_eq_true, Bool.not_eq_true'] at hc
      have hbarred : ∀ n, p.isBarred ((c :: d :: rest).take n) = false := by
        intro n
        refine Bool.eq_false_iff.mpr fun hn => ?_
        rw [hp.barred _ _ (List.take_prefix _ _) hn] at hc
        cases hc.2
      by_cases hrest : p.extent 0 (d :: rest) = 0
      · have := hbarred 1
        simp_all [extent]
      · obtain ⟨n, hn⟩ := Nat.exists_eq_succ_of_ne_zero hrest
        have hlater := ih hrest
        have := hbarred (n + 1 + 1)
        rw [hn] at hlater ⊢
        simp only [Nat.sub_zero, List.take_succ_cons] at hlater this ⊢
        simp [extent, he, hc.1, this, hlater]
  | case6 pending c d rest he hb hc ih =>
      have hlater := ih h
      have hpos := pending_lt_extent h
      obtain ⟨n, hn⟩ := Nat.exists_eq_add_of_lt hpos
      rw [hn] at hlater ⊢
      have h₁ : pending + 1 + n + 1 - pending = n + 1 + 1 := by omega
      have h₂ : pending + 1 + n + 1 - (pending + 1) = n + 1 := by omega
      rw [h₁]
      rw [h₂] at hlater
      simp only [List.take_succ_cons] at hlater ⊢
      simp [extent, he, (hp.gap c hc).1, hc, hlater]
  | case7 => exact absurd rfl h

/-- Nothing is counted after what was counted. -/
theorem extent_drop {pending : Nat} {s : Text} :
    p.extent 0 (s.drop (p.extent pending s - pending)) = 0 := by
  fun_induction extent p pending s with
  | case1 => simp [extent]
  | case2 pending c hc => simp [extent]
  | case3 pending c hc => simp [extent, hc]
  | case4 pending c d rest hc ih =>
      have hn : pending + 2 + p.extent 0 rest - pending = p.extent 0 rest + 1 + 1 := by omega
      rw [hn]
      simpa using ih
  | case5 pending c d rest he hc ih =>
      have hn : pending + 1 + p.extent 0 (d :: rest) - pending = p.extent 0 (d :: rest) + 1 := by
        omega
      rw [hn]
      simpa using ih
  | case6 pending c d rest he hb hc ih =>
      by_cases h : p.extent (pending + 1) (d :: rest) = 0
      · rw [h]
        simpa [extent, he, hb, hc] using extent_eq_zero_iff.mp h
      · obtain ⟨n, hn⟩ := Nat.exists_eq_add_of_lt (pending_lt_extent h)
        have h₁ : pending + 1 + n + 1 - pending = n + 1 + 1 := by omega
        have h₂ : pending + 1 + n + 1 - (pending + 1) = n + 1 := by omega
        rw [hn, h₂] at ih
        rw [hn, h₁]
        simpa using ih
  | case7 pending c d rest he hb hc => simp [extent, he, hb, hc]

/-- A text that neither carries a phrase on nor changes where its elements begin adds nothing to
the count. -/
theorem extent_append {rest : Text} (hrest : p.extent 0 rest = 0)
    (hbarred : ∀ c s, p.isBody c = true → p.isBarred (c :: s ++ rest) = p.isBarred (c :: s))
    (pending : Nat) (s : Text)
    (hescape : ∀ c, rest.head? = some c → p.isEscapable c = true → '\\' ∉ s) :
    p.extent pending (s ++ rest) = p.extent pending s := by
  have hzero : ∀ n, p.extent n rest = 0 := fun n => extent_eq_zero_iff.mp hrest
  have hbody : ∀ c s, (p.isBody c && !p.isBarred (c :: (s ++ rest))) =
      (p.isBody c && !p.isBarred (c :: s)) := by
    intro c s
    by_cases hc : p.isBody c = true
    · rw [← List.cons_append, hbarred c s hc]
    · simp [hc]
  have hlast : ∀ c, (∀ d, rest.head? = some d → p.isEscapable d = true → '\\' ∉ [c]) →
      (c == '\\' && rest.head?.any p.isEscapable) = false := by
    intro c hc
    refine Bool.eq_false_iff.mpr fun hboth => ?_
    obtain ⟨hslash, hescapable⟩ := Bool.and_eq_true_iff.mp hboth
    obtain ⟨d, hd, hescapable⟩ := (Option.any_eq_true _ _).mp hescapable
    exact hc d hd hescapable (by simpa using (beq_iff_eq.mp hslash).symm)
  have htail : ∀ {s t : Text}, t ⊆ s →
      (∀ c, rest.head? = some c → p.isEscapable c = true → '\\' ∉ s) →
      ∀ c, rest.head? = some c → p.isEscapable c = true → '\\' ∉ t :=
    fun hsubset h c hc hescapable hmem => h c hc hescapable (hsubset hmem)
  fun_induction extent p pending s with
  | case1 => exact hzero _
  | case2 pending c hc =>
      rw [List.singleton_append, extent_cons, hlast c hescape, ← List.nil_append rest, hbody,
        if_pos hc]
      simp [hzero]
  | case3 pending c hc =>
      rw [List.singleton_append, extent_cons, hlast c hescape, ← List.nil_append rest, hbody,
        if_neg hc]
      simp [hzero]
  | case4 pending c d s hc ih =>
      have ih := ih (htail (by simp) hescape)
      simp only [List.cons_append, extent, hc, if_true, ih]
  | case5 pending c d s he hc ih =>
      have := hbody c (d :: s)
      have ih := ih (htail (by simp) hescape)
      simp only [List.cons_append] at this ih ⊢
      rw [extent, if_neg he, this, if_pos hc, ih]
  | case6 pending c d s he hb hc ih =>
      have := hbody c (d :: s)
      have ih := ih (htail (by simp) hescape)
      simp only [List.cons_append] at this ih ⊢
      rw [extent, if_neg he, this, if_neg hb, if_pos hc, ih]
  | case7 pending c d s he hb hc =>
      have := hbody c (d :: s)
      simp only [List.cons_append] at this ⊢
      rw [extent, if_neg he, this, if_neg hb, if_neg hc]

/-- A phrase stands where an element begins. -/
theorem length_ne_zero_iff {s : Text} : p.length s ≠ 0 ↔ p.beginsAt s = true := by
  unfold length
  cases hbegins : p.beginsAt s with
  | false => simp
  | true =>
      cases s with
      | nil => cases hbegins
      | cons c s =>
          simp only [beginsAt, Bool.or_eq_true] at hbegins
          rw [if_pos rfl, extent_cons]
          by_cases hescape : (c == '\\' && s.head?.any p.isEscapable) = true
          · simp [hescape]
          · rw [if_neg hescape, if_pos (hbegins.resolve_left hescape)]
            simp

/-- A phrase is what is counted where no gap comes first. -/
theorem Regular.length_eq (hp : p.Regular) (s : Text) :
    p.length s = if s.head?.any p.isGap then 0 else p.extent 0 s := by
  unfold length
  cases s with
  | nil => rfl
  | cons c s =>
      have hhead : (c :: s).head?.any p.isGap = p.isGap c := rfl
      rw [hhead]
      by_cases hgap : p.isGap c = true
      · obtain ⟨hbody, hc⟩ := hp.gap c hgap
        have hbegins : p.beginsAt (c :: s) = false := by simp [beginsAt, hbody, hc]
        simp [hbegins, hgap]
      · by_cases hbegins : p.beginsAt (c :: s) = true
        · simp [hbegins, hgap]
        · rw [if_neg hbegins, if_neg hgap, extent_cons]
          simp only [beginsAt, Bool.or_eq_true, not_or] at hbegins
          rw [if_neg hbegins.1, if_neg hbegins.2, if_neg hgap]

/-- A phrase that was found is a phrase by itself. -/
theorem Regular.length_take (hp : p.Regular) {s : Text} (h : p.length s ≠ 0) :
    p.length (s.take (p.length s)) = p.length s := by
  rw [hp.length_eq s] at h ⊢
  split at h
  · exact absurd rfl h
  · next hgap =>
      have htake := hp.extent_take h
      rw [Nat.sub_zero] at htake
      rw [if_neg hgap, hp.length_eq, List.head?_take, if_neg h, if_neg hgap, htake]

/-- Nothing carries a phrase on. -/
theorem Regular.extent_drop_length (hp : p.Regular) {s : Text} (h : p.length s ≠ 0) :
    p.extent 0 (s.drop (p.length s)) = 0 := by
  rw [hp.length_eq s] at h ⊢
  split at h
  · exact absurd rfl h
  · next hgap =>
      rw [if_neg hgap]
      exact @extent_drop p 0 s

/-- A text that neither carries a phrase on nor changes where its elements begin leaves it. -/
theorem Regular.length_append (hp : p.Regular) {s rest : Text} (hrest : p.extent 0 rest = 0)
    (hescape : ∀ c, rest.head? = some c → p.isEscapable c = true → '\\' ∉ s)
    (hbarred : ∀ c s, p.isBody c = true → p.isBarred (c :: s ++ rest) = p.isBarred (c :: s))
    (hs : s ≠ []) : p.length (s ++ rest) = p.length s := by
  rw [hp.length_eq, hp.length_eq, extent_append hrest hbarred 0 s hescape]
  cases s with
  | nil => exact absurd rfl hs
  | cons c s => rfl

end Phrase

end DiagramText
