import DiagramText.Proofs.Lexeme.Rank
import DiagramText.Proofs.Names

/-!
# Scanners at an offset

A recogniser is given the text ahead.  A scanner is given the whole source and an
offset, and looks at the places of the source it has to: for the backslash before
the fence that may close a comment, for the mark that closes a block of code, for
what follows a literal, and for the connections that may cut a name.

Each scanner finds at an offset what a recogniser finds in the text ahead
(`Scanner.Sees`), and so does the choice among all scanners of a mode
(`Mode.pick_scanners`): what stands before the offset does not count.
-/

namespace DiagramText

/-- Looks for a lexeme at an offset of a source. -/
abbrev Scanner := (source : Text) → (offset : Nat) → Except LexFault (Option Lexeme)

namespace Scanner

/-- The scanner finds at an offset what the recogniser finds in the text ahead. -/
def Sees (scanner : Scanner) (recogniser : Recogniser) : Prop :=
  ∀ source offset, scanner source offset = recogniser (source.drop offset)

/-- Looks at nothing but the text ahead. -/
def ofRecogniser (recogniser : Recogniser) : Scanner := fun source offset =>
  recogniser (source.drop offset)

end Scanner

open Scanner

/-! ## Comments between fences -/

namespace Text

/-- The first fence from an offset on before which no backslash stands. -/
def closingFence? (source : Text) (search : Nat) : Option Nat :=
  match _found : find? commentFence (source.drop search) with
  | none => none
  | some count =>
    if source[search + count - 1]? = some '\\' then closingFence? source (search + count + 1)
    else some (search + count)
termination_by source.length - search
decreasing_by
  have hle := find?_le_length _found
  simp only [commentFence, List.length_cons, List.length_nil, List.length_drop] at hle
  omega

/-- A mark that is nowhere is nowhere unescaped either. -/
theorem findUnescaped?_eq_none {mark s : Text} {escaped : Bool} (h : find? mark s = none) :
    findUnescaped? mark escaped s = none := by
  induction s generalizing escaped with
  | nil => rfl
  | cons c s ih =>
      simp only [find?] at h
      split at h
      · cases h
      · next hmark =>
          rw [Option.map_eq_none_iff] at h
          simp [findUnescaped?, hmark, ih h]

/-- Where a backslash stands before the leftmost mark the search goes on behind it. -/
theorem findUnescaped?_of_find? {mark source s : Text} {search count : Nat}
    (hs : source.drop search = s) (hsearch : 0 < search) (hmark : mark ≠ [])
    (hfind : find? mark s = some count) :
    findUnescaped? mark (source[search - 1]? == some '\\') s =
      if source[search + count - 1]? = some '\\' then
        (findUnescaped? mark (source[search + count]? == some '\\')
          (source.drop (search + count + 1))).map (· + (count + 1))
      else some count := by
  induction s generalizing search count with
  | nil => cases mark <;> simp_all [find?]
  | cons c s ih =>
      obtain ⟨hc, hrest⟩ := of_drop_eq_cons hs
      simp only [find?] at hfind
      split at hfind
      · next hfront =>
          obtain rfl := Option.some.inj hfind
          simp only [findUnescaped?, hfront, Nat.add_zero, hc, hrest, Option.some_beq_some,
            Bool.and_true, Nat.zero_add]
          by_cases hslash : source[search - 1]? = some '\\' <;> simp [hslash]
      · next hfront =>
          obtain ⟨later, hlater, rfl⟩ := Option.map_eq_some_iff.mp hfind
          have hstep := ih hrest (Nat.succ_pos search) hlater
          have hplace : search + 1 + later = search + (later + 1) := by omega
          rw [Nat.add_sub_cancel, hc, hplace, Option.some_beq_some] at hstep
          simp only [findUnescaped?, hfront, Bool.and_false, Bool.false_eq_true, if_false, hstep]
          split
          · rw [Option.map_map]
            rfl
          · rfl

/-- The search for a fence that no backslash precedes goes on behind those that one precedes. -/
theorem closingFence?_eq (source : Text) {search : Nat} (hsearch : 0 < search) :
    closingFence? source search =
      (findUnescaped? commentFence (source[search - 1]? == some '\\') (source.drop search)).map
        (search + ·) := by
  fun_induction closingFence? source search with
  | case1 search hfind => rw [findUnescaped?_eq_none hfind, Option.map_none]
  | case2 search count hfind hslash ih =>
      rw [findUnescaped?_of_find? rfl hsearch (by decide) hfind, if_pos hslash,
        ih (Nat.succ_pos _), Option.map_map, Nat.add_sub_cancel]
      congr 1
      funext later
      simp only [Function.comp_apply]
      omega
  | case3 search count hfind hslash =>
      rw [findUnescaped?_of_find? rfl hsearch (by decide) hfind, if_neg hslash, Option.map_some]

end Text

/-- A block comment, which ends with the closing fence wherever that stands. -/
def blockCommentAt : Scanner := fun source offset =>
  if commentFence.isPrefixOf (source.drop offset) then
    match source.closingFence? (offset + 3) with
    | none => .error .unterminatedComment
    | some close => .ok (some ⟨.blockComment, close + 3 - offset⟩)
  else .ok none

/-- The scanner of block comments sees what its recogniser finds. -/
theorem sees_blockComment : blockCommentAt.Sees blockComment := by
  intro source offset
  by_cases hfence : commentFence.isPrefixOf (source.drop offset) = true
  · obtain ⟨rest, hrest⟩ := List.isPrefixOf_iff_prefix.mp hfence
    have hquote : source[offset + 3 - 1]? = some '\x22' := by
      have hplace : offset + 3 - 1 = offset + 2 := by omega
      rw [hplace, ← List.getElem?_drop, ← hrest]
      rfl
    have hpos : 0 < offset + 3 := by omega
    have hclose := Text.closingFence?_eq source hpos
    have hplain : (some '\x22' == some '\\') = false := by decide
    rw [hquote, hplain, ← List.drop_drop] at hclose
    simp only [blockCommentAt, blockComment, hfence, if_true, hclose]
    cases Text.findUnescaped? commentFence false ((source.drop offset).drop 3) with
    | none => rfl
    | some body =>
        have hlength : offset + 3 + body + 3 - offset = 3 + body + 3 := by omega
        simp only [Option.map_some, hlength]
  · simp only [blockCommentAt, blockComment, hfence, Bool.false_eq_true, if_false]

/-! ## Blocks of code -/

/-- A block of code, which ends with the fence that closes it. -/
def codeBlockAt : Scanner := fun source offset =>
  match FenceStyle.openingOf? (source.drop offset) with
  | none => .ok none
  | some style =>
    let inner := offset + style.opener.length
    match languageTag? (source.drop inner) with
    | none => .error (.missingLanguage style)
    | some (_, tag) =>
      match Text.find? style.closer (source.drop (inner + tag)) with
      | none => .error (.unterminatedCode style)
      | some content =>
        .ok (some ⟨.codeBlock, inner + tag + content + style.closer.length - offset⟩)

/-- The scanner of code blocks sees what its recogniser finds. -/
theorem sees_codeBlock : codeBlockAt.Sees codeBlock := by
  intro source offset
  simp only [codeBlockAt, codeBlock, List.drop_drop, Nat.add_assoc]
  cases FenceStyle.openingOf? (source.drop offset) with
  | none => rfl
  | some style =>
      simp only
      cases languageTag? (source.drop (offset + style.opener.length)) with
      | none => rfl
      | some found =>
          simp only
          cases Text.find? style.closer (source.drop (offset + (style.opener.length + found.2))) with
          | none => rfl
          | some content =>
              simp only [Nat.add_sub_cancel_left]

/-! ## Literals -/

/-- Whether a literal may end at the offset. -/
def isLiteralEndAt (source : Text) (offset : Nat) : Bool :=
  source[offset]?.all fun c => isBlank c || c == ';'

/-- Whether a literal ends at an offset is said of the text from there on. -/
theorem isLiteralEndAt_eq (source : Text) (offset : Nat) :
    isLiteralEndAt source offset = isLiteralEnd (source.drop offset) := by
  rw [isLiteralEndAt, ← List.head?_drop]
  cases source.drop offset <;> rfl

/-- A literal of this length, where one may end. -/
def literalAt (kind : TokenKind) (length : Text → Nat) : Scanner := fun source offset =>
  let stop := offset + length (source.drop offset)
  .ok (if stop ≠ offset ∧ isLiteralEndAt source stop then some ⟨kind, stop - offset⟩ else none)

/-- The scanner of literals sees what their recogniser finds. -/
theorem sees_literal (kind : TokenKind) (length : Text → Nat) :
    (literalAt kind length).Sees (.ofLength kind (literalLength length)) := by
  intro source offset
  simp only [literalAt, Recogniser.ofLength, literalLength, isLiteralEndAt_eq, List.drop_drop]
  grind

/-! ## Names and label texts -/

namespace Phrase

/-- No backslash is barred, and no character that it makes an element of. -/
structure Unbarred (p : Phrase) : Prop where
  slash : ∀ s, p.isBarred ('\\' :: s) = false
  escaped : ∀ c s, p.isEscapable c = true → p.isBarred (c :: s) = false

/-- The phrase of a name is unbarred. -/
theorem unbarred_namePhrase : namePhrase.Unbarred where
  slash s := rfl
  escaped c s hc := by
    obtain rfl := beq_iff_eq.mp hc
    rfl

theorem unbarred_labelPhrase : labelPhrase.Unbarred :=
  ⟨fun _ => rfl, fun _ _ _ => rfl⟩

variable {p : Phrase}

/-- Length of the elements in a row at the front, whether or not they are barred. -/
def rowLength (p : Phrase) : Text → Nat
  | [] => 0
  | [c] => if p.isBody c then 1 else 0
  | c :: d :: rest =>
    if c == '\\' && p.isEscapable d then 2 + rowLength p rest
    else if p.isBody c then 1 + rowLength p (d :: rest)
    else 0

/-- Length of the elements in a row at the front up to the first that is barred. -/
def freeLength (p : Phrase) : Text → Nat
  | [] => 0
  | [c] => if p.isBody c && !p.isBarred [c] then 1 else 0
  | c :: d :: rest =>
    if c == '\\' && p.isEscapable d then 2 + freeLength p rest
    else if p.isBody c && !p.isBarred (c :: d :: rest) then 1 + freeLength p (d :: rest)
    else 0

/-- A row of the phrase ends within the text. -/
theorem rowLength_le_length (p : Phrase) (s : Text) : p.rowLength s ≤ s.length := by
  fun_induction rowLength p s <;> simp only [List.length_cons, List.length_nil] at * <;> omega

/-- What is counted begins with the row, and goes on behind it. -/
theorem extent_eq_freeLength (p : Phrase) (s : Text) :
    p.extent 0 s = p.freeLength s + p.extent 0 (s.drop (p.freeLength s)) := by
  fun_induction freeLength p s with
  | case1 => rfl
  | case2 c hc => simp [extent, hc]
  | case3 c hc => simp
  | case4 c d rest hescape ih =>
      rw [Nat.add_comm 2, List.drop_succ_cons, List.drop_succ_cons, extent, if_pos hescape, ih]
      omega
  | case5 c d rest hescape hc ih =>
      rw [Nat.add_comm 1, List.drop_succ_cons, extent, if_neg hescape, if_pos hc, ih]
      omega
  | case6 c d rest hescape hc => simp

/-- Behind the row no element begins. -/
theorem beginsAt_drop_freeLength (p : Phrase) (s : Text) :
    p.beginsAt (s.drop (p.freeLength s)) = false := by
  fun_induction freeLength p s with
  | case1 => rfl
  | case2 c hc => rfl
  | case3 c hc => simpa [beginsAt] using hc
  | case4 c d rest hescape ih =>
      rw [Nat.add_comm 2, List.drop_succ_cons, List.drop_succ_cons]
      exact ih
  | case5 c d rest hescape hc ih =>
      rw [Nat.add_comm 1, List.drop_succ_cons]
      exact ih
  | case6 c d rest hescape hc =>
      rw [List.drop_zero, beginsAt, List.head?_cons, Option.any_some, Bool.or_eq_false_iff]
      exact ⟨Bool.eq_false_iff.mpr hescape, Bool.eq_false_iff.mpr hc⟩

/-- No free element stands where the phrase does not begin. -/
theorem freeLength_eq_zero_iff {s : Text} : p.freeLength s = 0 ↔ p.beginsAt s = false := by
  constructor
  · intro h
    have hbegins := p.beginsAt_drop_freeLength s
    rwa [h, List.drop_zero] at hbegins
  · intro h
    fun_cases freeLength p s <;> simp_all [beginsAt]

/-- A row that is not free to its end is barred where an element stands as it is. -/
theorem barred_of_lt {s : Text} (h : p.freeLength s < p.rowLength s) :
    ∃ c rest, s.drop (p.freeLength s) = c :: rest ∧ p.isBody c = true ∧
      p.isBarred (c :: rest) = true := by
  fun_induction freeLength p s with
  | case1 => cases h
  | case2 c hc =>
      simp only [Bool.and_eq_true] at hc
      simp [rowLength, hc.1] at h
  | case3 c hc =>
      by_cases hbody : p.isBody c = true
      · exact ⟨c, [], rfl, hbody, by simpa [hbody] using hc⟩
      · simp [rowLength, hbody] at h
  | case4 c d rest hescape ih =>
      rw [rowLength, if_pos hescape] at h
      rw [Nat.add_comm 2, List.drop_succ_cons, List.drop_succ_cons]
      exact ih (by omega)
  | case5 c d rest hescape hc ih =>
      rw [Bool.and_eq_true] at hc
      rw [rowLength, if_neg hescape, if_pos hc.1] at h
      rw [Nat.add_comm 1, List.drop_succ_cons]
      exact ih (by omega)
  | case6 c d rest hescape hc =>
      by_cases hbody : p.isBody c = true
      · exact ⟨c, d :: rest, rfl, hbody, by simpa [hbody] using hc⟩
      · simp [rowLength, hescape, hbody] at h

/-- The first place of the row that is barred, if any is, is where its free part ends. -/
theorem Unbarred.find?_row (hp : p.Unbarred) {source s : Text} {offset : Nat}
    (hs : source.drop offset = s) :
    (List.range' offset (p.rowLength s)).find? (fun place => p.isBarred (source.drop place)) =
      if p.freeLength s < p.rowLength s then some (offset + p.freeLength s) else none := by
  fun_induction freeLength p s generalizing offset with
  | case1 => rfl
  | case2 c hc =>
      simp only [Bool.and_eq_true, Bool.not_eq_true'] at hc
      simp [rowLength, hc.1, hc.2, hs]
  | case3 c hc =>
      by_cases hbody : p.isBody c = true
      · have hbarred : p.isBarred [c] = true := by simpa [hbody] using hc
        simp [rowLength, hbody, hbarred, hs]
      · simp [rowLength, hbody]
  | case4 c d rest hescape ih =>
      -- Two places are passed over at once, so neither of them may be barred.
      have hd := (Text.of_drop_eq_cons hs).2
      have hrest := (Text.of_drop_eq_cons hd).2
      have hescaped := (Bool.and_eq_true_iff.mp hescape).2
      obtain rfl := beq_iff_eq.mp (Bool.and_eq_true_iff.mp hescape).1
      rw [rowLength, if_pos hescape, Nat.add_comm 2, List.range'_succ, List.range'_succ,
        List.find?_cons_of_neg (by simp [hs, hp.slash]),
        List.find?_cons_of_neg (by simp [hd, hp.escaped d rest hescaped]), ih hrest]
      grind
  | case5 c d rest hescape hc ih =>
      have hrest := (Text.of_drop_eq_cons hs).2
      simp only [Bool.and_eq_true, Bool.not_eq_true'] at hc
      rw [rowLength, if_neg hescape, if_pos hc.1, Nat.add_comm 1, List.range'_succ,
        List.find?_cons_of_neg (by simp [hs, hc.2]), ih hrest]
      grind
  | case6 c d rest hescape hc =>
      by_cases hbody : p.isBody c = true
      · have hbarred : p.isBarred (c :: d :: rest) = true := by simpa [hbody] using hc
        rw [rowLength, if_neg hescape, if_pos hbody, Nat.add_comm 1, List.range'_succ,
          List.find?_cons_of_pos (by simp [hs, hbarred]), if_pos (Nat.succ_pos _)]
        rfl
      · simp [rowLength, hescape, hbody]

/-- Where the elements in a row at the offset end, and whether one that is barred ends them. -/
def rowAt (p : Phrase) (source : Text) (offset : Nat) : Nat × Bool :=
  let row := p.rowLength (source.drop offset)
  match (List.range' offset row).find? fun place => p.isBarred (source.drop place) with
  | some place => (place, true)
  | none => (offset + row, false)

/-- The free elements stand within their row. -/
theorem freeLength_le_rowLength (p : Phrase) (s : Text) : p.freeLength s ≤ p.rowLength s := by
  fun_induction freeLength p s <;> grind [rowLength]

/-- A row at an offset ends behind its free elements, and goes on if the row does. -/
theorem Unbarred.rowAt_eq (hp : p.Unbarred) (source : Text) (offset : Nat) :
    p.rowAt source offset = (offset + p.freeLength (source.drop offset),
      decide (p.freeLength (source.drop offset) < p.rowLength (source.drop offset))) := by
  have hle := p.freeLength_le_rowLength (source.drop offset)
  rw [rowAt, hp.find?_row rfl]
  split <;> grind

/-- A row at an offset ends within the row of the text from there on. -/
theorem rowAt_bounds (p : Phrase) (source : Text) (offset : Nat) :
    offset ≤ (p.rowAt source offset).1 ∧
      (p.rowAt source offset).1 ≤ offset + p.rowLength (source.drop offset) := by
  simp only [rowAt]
  split
  · next place hplace =>
      have hmem := List.mem_of_find?_eq_some hplace
      simp only [List.mem_range'_1] at hmem
      omega
  · simp

/-- A row stands where an element begins, none begins behind it, what is counted begins with the row,
and behind a row that was cut nothing is counted. -/
theorem Unbarred.rowAt_spec (hp : p.Unbarred) (hregular : p.Regular) {source : Text} {offset : Nat}
    {row : Nat × Bool} (hrow : p.rowAt source offset = row) :
    (row.1 = offset ↔ p.beginsAt (source.drop offset) = false) ∧
      p.beginsAt (source.drop row.1) = false ∧
      offset + p.extent 0 (source.drop offset) = row.1 + p.extent 0 (source.drop row.1) ∧
      (row.2 = true → p.extent 0 (source.drop row.1) = 0) := by
  subst hrow
  rw [hp.rowAt_eq source offset]
  have hcount := p.extent_eq_freeLength (source.drop offset)
  have hbegins := p.beginsAt_drop_freeLength (source.drop offset)
  rw [List.drop_drop] at hcount hbegins
  dsimp only
  refine ⟨?_, hbegins, by omega, ?_⟩
  · rw [← freeLength_eq_zero_iff]
    omega
  · intro hcut
    obtain ⟨c, rest, hdrop, hbody, hbarred⟩ := barred_of_lt (of_decide_eq_true hcut)
    rw [List.drop_drop] at hdrop
    rw [hdrop]
    apply extent_barred hbarred
    · exact Bool.eq_false_iff.mpr fun hgap => by simp [(hregular.gap c hgap).1] at hbody
    · intro hslash
      subst hslash
      rw [hp.slash] at hbarred
      cases hbarred

/-- Where the phrase ends of which the elements up to `stop` have been read.  It goes on behind a gap
where elements follow, unless it was cut. -/
def endFrom (p : Phrase) (source : Text) (stop : Nat) (cut : Bool) : Nat :=
  let gap := Text.run p.isGap (source.drop stop)
  let row := p.rowAt source (stop + gap)
  if cut ∨ gap = 0 ∨ row.1 = stop + gap then stop else endFrom p source row.1 row.2
termination_by source.length - stop
decreasing_by
  have hbounds : stop + gap ≤ row.1 ∧ row.1 ≤ stop + gap + p.rowLength (source.drop (stop + gap)) :=
    p.rowAt_bounds source (stop + gap)
  have hlength := p.rowLength_le_length (source.drop (stop + gap))
  rw [List.length_drop] at hlength
  show source.length - row.1 < source.length - stop
  omega

/-- A gap that came before is counted where anything is. -/
theorem extent_pending (p : Phrase) (pending : Nat) (s : Text) :
    p.extent pending s = if p.extent 0 s = 0 then 0 else pending + p.extent 0 s := by
  induction s generalizing pending with
  | nil => rfl
  | cons c s ih =>
      rw [extent_cons, extent_cons p 0]
      split
      · grind
      · split
        · grind
        · split
          · rw [ih (pending + 1), ih (0 + 1)]
            grind
          · rfl

/-- A gap ahead is counted where anything is counted behind it. -/
theorem Regular.extent_gap (hregular : p.Regular) (s : Text) :
    p.extent 0 s = if p.extent 0 (s.drop (s.run p.isGap)) = 0 then 0
      else s.run p.isGap + p.extent 0 (s.drop (s.run p.isGap)) := by
  induction s with
  | nil => rfl
  | cons c s ih =>
      by_cases hc : p.isGap c = true
      · obtain ⟨hbody, hslash⟩ := hregular.gap c hc
        have hstep : p.extent 0 (c :: s) = p.extent 1 s := by
          rw [extent_cons]
          simp [hbody, hslash, hc]
        rw [hstep, extent_pending, Text.run_cons, if_pos hc, List.drop_succ_cons]
        grind
      · rw [Text.run_cons, if_neg hc, List.drop_zero, Nat.zero_add]
        split
        · assumption
        · rfl

/-- The phrase goes on behind `stop` by what is counted there.  The induction follows the rows: behind
each of them no element begins, and behind one that was cut nothing is counted. -/
theorem Unbarred.endFrom_eq (hp : p.Unbarred) (hregular : p.Regular) {source : Text} {stop : Nat}
    {cut : Bool} (hbegins : p.beginsAt (source.drop stop) = false)
    (hcut : cut = true → p.extent 0 (source.drop stop) = 0) :
    p.endFrom source stop cut = stop + p.extent 0 (source.drop stop) := by
  fun_induction endFrom p source stop cut with
  | case1 stop cut gap row hstop =>
      have hbehind : (source.drop stop).dropWhile p.isGap = source.drop (stop + gap) := by
        rw [← Text.drop_run, List.drop_drop]
      have hnone : p.extent 0 (source.drop stop) = 0 := by
        rcases hstop with hcut' | hgap | hrow
        · exact hcut hcut'
        · rw [hregular.extent_eq_zero_iff_beginsAt, hbehind, hgap]
          exact hbegins
        · rw [hregular.extent_eq_zero_iff_beginsAt, hbehind]
          exact (hp.rowAt_spec hregular rfl).1.mp hrow
      rw [hnone, Nat.add_zero]
  | case2 stop cut gap row hgoes ih =>
      obtain ⟨hempty, hrow, hcount, hcut'⟩ :=
        hp.rowAt_spec hregular (rfl : p.rowAt source (stop + gap) = row)
      have hbounds : stop + gap ≤ row.1 ∧ _ := p.rowAt_bounds source (stop + gap)
      have hgap : p.extent 0 (source.drop stop) =
          if p.extent 0 (source.drop (stop + gap)) = 0 then 0
          else gap + p.extent 0 (source.drop (stop + gap)) := by
        rw [hregular.extent_gap, List.drop_drop]
      rw [ih hrow hcut']
      grind

end Phrase

/-- A phrase, which ends before the gap behind its last element. -/
def phraseAt (kind : TokenKind) (p : Phrase) : Scanner := fun source offset =>
  let row := p.rowAt source offset
  .ok (if row.1 = offset then none else some ⟨kind, p.endFrom source row.1 row.2 - offset⟩)

/-- The scanner of a phrase sees what its recogniser finds. -/
theorem sees_phrase (kind : TokenKind) {p : Phrase} (hp : p.Unbarred) (hregular : p.Regular) :
    (phraseAt kind p).Sees (.ofLength kind p.length) := by
  intro source offset
  obtain ⟨hempty, hbegins, hcount, hcut⟩ :=
    hp.rowAt_spec hregular (Eq.refl (p.rowAt source offset))
  have hend := hp.endFrom_eq hregular hbegins hcut
  simp only [phraseAt, Recogniser.ofLength]
  by_cases hrow : (p.rowAt source offset).1 = offset
  · have hnone : p.length (source.drop offset) = 0 := by
      rw [Phrase.length, hempty.mp hrow]
      rfl
    rw [if_pos hrow, if_pos hnone]
  · have hhere : p.beginsAt (source.drop offset) = true := by
      rw [← Bool.not_eq_false]
      exact mt hempty.mpr hrow
    have hsome := Phrase.length_ne_zero_iff.mpr hhere
    have hlength : p.length (source.drop offset) = p.extent 0 (source.drop offset) := if_pos hhere
    have hstop : p.endFrom source (p.rowAt source offset).1 (p.rowAt source offset).2 - offset =
        p.length (source.drop offset) := by
      omega
    rw [if_neg hrow, if_neg hsome, hstop]

/-! ## Modes -/

namespace Mode

/-- The scanners of a mode.  All of them are asked, in whatever order. -/
def scanners : Mode → List Scanner
  | .declaration =>
    [ofRecogniser (.ofLength .terminator terminatorLength), ofRecogniser lineComment, blockCommentAt,
     ofRecogniser (.ofLength .importRef importLength),
     ofRecogniser (.ofLength .connection connectionLength),
     ofRecogniser (quotedText [.double, .single]),
     ofRecogniser (punctuation ['\x7b', '\x7d', '(', ')', ':', '.', '[', ']']),
     phraseAt .ident namePhrase]
  | .label =>
    [ofRecogniser (.ofLength .terminator terminatorLength), ofRecogniser lineComment, blockCommentAt,
     ofRecogniser (.ofLength .importRef importLength), ofRecogniser (quotedText [.double]),
     ofRecogniser (punctuation ['\x7b', '\x7d', '[']), codeBlockAt,
     literalAt .number numeralLength, literalAt .boolean booleanLength, phraseAt .text labelPhrase]
  | .arguments =>
    [ofRecogniser lineComment, ofRecogniser (punctuation ['(', ')', ',', ':']),
     ofRecogniser (word fun c => isPlainWord c || c == '[' || c == ']')]
  | .constraints =>
    [ofRecogniser lineComment, ofRecogniser (punctuation ['[', ']', ';']),
     ofRecogniser (word isPlainWord)]

/-- What the scanners find at an offset is what the recognisers find in the text ahead. -/
theorem mem_scanners {mode : Mode} {source : Text} {offset : Nat}
    {result : Except LexFault (Option Lexeme)} :
    result ∈ mode.scanners.map (fun scanner => scanner source offset) ↔
      ∃ recogniser ∈ mode.recognisers, recogniser (source.drop offset) = result := by
  have hcomment := sees_blockComment source offset
  have hcode := sees_codeBlock source offset
  have hliteral (kind : TokenKind) (length : Text → Nat) := sees_literal kind length source offset
  have hname := sees_phrase .ident Phrase.unbarred_namePhrase Phrase.regular_namePhrase source offset
  have htext := sees_phrase .text Phrase.unbarred_labelPhrase Phrase.regular_labelPhrase source offset
  cases mode
  all_goals simp only [scanners, recognisers, shared, List.map_cons, List.map_nil, hcomment, hcode,
    hliteral, hname, htext, ofRecogniser, List.cons_append, List.nil_append, List.mem_cons,
    exists_eq_or_imp, List.not_mem_nil, or_false, exists_eq_left, eq_comm]
  -- The two lists differ in where quoted texts come.
  case declaration => grind
  case label => grind

/-- Of all that the scanners find at an offset, what is taken is what is found in the text ahead. -/
theorem pick_scanners (mode : Mode) (source : Text) (offset : Nat) :
    Lexeme.pick none (mode.scanners.map fun scanner => scanner source offset) =
      Recogniser.firstOf mode.recognisers (source.drop offset) :=
  Recogniser.pick_eq_firstOf mode.recognisers_overrides fun _ => mem_scanners

end Mode

end DiagramText
