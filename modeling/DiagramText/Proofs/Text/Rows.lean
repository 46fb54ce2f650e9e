import DiagramText.Position
import DiagramText.Text.Character
import DiagramText.Text.Display

/-!
# Rows

A position counts the lines that end with a line feed, a carriage return, or the two together.
The rows of a text are these lines, each with its break; the last row has none and is empty where
the text ends with a break.  A position points into the row of its line
(`Position.row_of_advance`).

The display breaks lines at other characters, too, and shows no empty line behind the last break.
Up to the first row in which that makes a difference the display lines are the rows without their
breaks (`Text.take_lines`).
-/

namespace DiagramText

namespace Text

/-- The lines that positions count, each with the break that ends it. -/
def rows : Text → List Text
  | [] => [[]]
  | '\r' :: '\n' :: rest => ['\r', '\n'] :: rows rest
  | c :: rest => if isBreak c then [c] :: rows rest else consLine c (rows rest)

/-- A row without its break. -/
def unbroken (row : Text) : Text :=
  row.takeWhile fun c => !isBreak c

/-- Whether the row is a line of the display: it is not empty, and the display breaks it nowhere
but at its end. -/
def isDisplayed (row : Text) : Bool :=
  !row.isEmpty && row.all fun c => isBreak c || !isDisplayBreak c

theorem exists_rows_eq_cons (s : Text) : ∃ row later, s.rows = row :: later := by
  fun_induction rows s with
  | case1 => exact ⟨_, _, rfl⟩
  | case2 => exact ⟨_, _, rfl⟩
  | case3 => exact ⟨_, _, rfl⟩
  | case4 c rest _ _ ih =>
    obtain ⟨row, later, hrows⟩ := ih
    exact ⟨c :: row, later, by rw [hrows, consLine]⟩

/-- The rows are all of the text. -/
theorem flatten_rows (s : Text) : s.rows.flatten = s := by
  fun_induction rows s with
  | case1 => rfl
  | case2 rest ih => rw [List.flatten_cons, ih]; rfl
  | case3 c rest _ _ ih => rw [List.flatten_cons, ih]; rfl
  | case4 c rest _ _ ih =>
    obtain ⟨row, later, hrows⟩ := exists_rows_eq_cons rest
    rw [hrows, List.flatten_cons] at ih
    rw [hrows, consLine, List.flatten_cons, List.cons_append, ih]

/-- The rows up to the one behind others are these and that row. -/
theorem take_rows {s row : Text} {before after : List Text} (h : s.rows = before ++ row :: after) :
    s.rows.take (before.length + 1) = before ++ [row] := by
  rw [h, List.take_length_add_append]
  rfl

/-- Only the empty text begins with an empty row. -/
theorem ne_nil_of_rows {s row : Text} {later : List Text} (h : s.rows = row :: later)
    (hs : s ≠ []) : row ≠ [] := by
  rintro rfl
  revert h
  fun_cases rows s with
  | case1 => exact absurd rfl hs
  | case2 => simp
  | case3 => simp
  | case4 c rest =>
    obtain ⟨row, later, hrows⟩ := exists_rows_eq_cons rest
    simp [hrows, consLine]

/-! ## Display lines -/

/-- Every break of a line is shown as one. -/
theorem isDisplayBreak_of_isBreak {c : Char} (h : isBreak c = true) : isDisplayBreak c = true := by
  simp only [isBreak, Bool.or_eq_true, beq_iff_eq] at h
  rcases h with rfl | rfl <;> decide

/-- A break that is shown ends the first line. -/
theorem lines_break {c : Char} {rest : Text} (hc : isDisplayBreak c = true)
    (hpair : ∀ later, c = '\r' → rest = '\n' :: later → False) :
    lines (c :: rest) = [] :: lines rest := by
  rw [lines, if_pos hc]
  exact hpair

/-- A character that is shown on its line stands in the first line. -/
theorem lines_plain {c : Char} {rest : Text} (hc : isDisplayBreak c = false) :
    lines (c :: rest) = consLine c (lines rest) := by
  rw [lines, if_neg (by simp [hc])]
  rintro _ rfl
  exact absurd hc (by decide)

theorem unbroken_cons {c : Char} (hc : isBreak c = false) (row : Text) :
    unbroken (c :: row) = c :: unbroken row :=
  List.takeWhile_cons_of_pos (by simp [hc])

/-- A row that is shown as one line has no further break in it. -/
theorem isDisplayed_cons {c : Char} {row : Text} (hc : isBreak c = false)
    (h : isDisplayed (c :: row) = true) :
    isDisplayBreak c = false ∧ (row ≠ [] → row.isDisplayed = true) := by
  simp only [isDisplayed, List.isEmpty_cons, Bool.not_false, Bool.true_and, List.all_cons,
    Bool.and_eq_true, hc, Bool.false_or, Bool.not_eq_true'] at h
  exact ⟨h.1, fun hne => by simpa [isDisplayed, hne] using h.2⟩

/-- As long as the rows are lines of the display, they are its first lines. -/
theorem take_lines {s : Text} {count : Nat}
    (h : ∀ row ∈ s.rows.take count, row.isDisplayed = true) :
    s.lines.take count = (s.rows.take count).map unbroken := by
  fun_induction rows s generalizing count with
  | case1 =>
    cases count with
    | zero => rfl
    | succ count => simp [isDisplayed] at h
  | case2 rest ih =>
    cases count with
    | zero => rfl
    | succ count =>
      rw [lines, List.take_succ_cons, List.take_succ_cons, List.map_cons,
        ih fun row hrow => h row (List.mem_cons_of_mem _ hrow)]
      rfl
  | case3 c rest hpair hc ih =>
    cases count with
    | zero => rfl
    | succ count =>
      have hempty : unbroken [c] = [] := by simp [unbroken, hc]
      rw [lines_break (isDisplayBreak_of_isBreak hc) hpair, List.take_succ_cons,
        List.take_succ_cons, List.map_cons, hempty,
        ih fun row hrow => h row (List.mem_cons_of_mem _ hrow)]
  | case4 c rest hpair hc ih =>
    cases count with
    | zero => rfl
    | succ count =>
      have hc : isBreak c = false := by simpa using hc
      obtain ⟨row, later, hrows⟩ := exists_rows_eq_cons rest
      rw [hrows, consLine, List.take_succ_cons] at h ⊢
      obtain ⟨hfirst, hlater⟩ := List.forall_mem_cons.mp h
      obtain ⟨hplain, hrow⟩ := isDisplayed_cons hc hfirst
      rw [lines_plain hplain, List.map_cons, unbroken_cons hc]
      cases rest with
      | nil =>
        obtain ⟨rfl, rfl⟩ := List.cons.inj hrows
        rw [lines, consLine, List.take_succ_cons, List.take_nil]
        rfl
      | cons d others =>
        -- The rest begins with a row that is not empty, so its first lines are known, too.
        have hrest : (lines (d :: others)).take (count + 1) =
            unbroken row :: (later.take count).map unbroken := by
          rw [ih, hrows, List.take_succ_cons, List.map_cons]
          rw [hrows, List.take_succ_cons]
          exact List.forall_mem_cons.mpr
            ⟨hrow (ne_nil_of_rows hrows (List.cons_ne_nil d others)), hlater⟩
        cases hlines : lines (d :: others) with
        | nil => simp [hlines] at hrest
        | cons line more =>
          rw [hlines, List.take_succ_cons] at hrest
          obtain ⟨rfl, hmore⟩ := List.cons.inj hrest
          rw [consLine, List.take_succ_cons, hmore]

/-! ## Positions -/

/-- The place `count` characters into the text lies in `row`, or at the end of the text behind it;
`before` and `after` are the other rows. -/
structure InRow (s : Text) (count : Nat) (before : List Text) (row : Text) (after : List Text) :
    Prop where
  rows : s.rows = before ++ row :: after
  le : before.flatten.length ≤ count
  lt : count < before.flatten.length + row.length ∨
    after = [] ∧ count = before.flatten.length + row.length

namespace InRow

variable {s rest row : Text} {count : Nat} {before after : List Text}

/-- The front of a text lies in its first row. -/
theorem front (s : Text) : ∃ row after, InRow s 0 [] row after := by
  obtain ⟨row, after, hrows⟩ := exists_rows_eq_cons s
  refine ⟨row, after, hrows, Nat.le_refl 0, ?_⟩
  by_cases hs : s = []
  · subst hs
    obtain ⟨rfl, rfl⟩ := List.cons.inj hrows
    exact .inr ⟨rfl, rfl⟩
  · have := List.length_pos_iff.mpr (ne_nil_of_rows hrows hs)
    exact .inl (by simpa using this)

/-- A row in front of the text. -/
theorem behind (h : InRow rest count before row after) {first : Text}
    (hrows : s.rows = first :: rest.rows) :
    InRow s (first.length + count) (first :: before) row after := by
  have hlength : (first :: before).flatten.length = first.length + before.flatten.length := by
    rw [List.flatten_cons, List.length_append]
  refine ⟨by rw [hrows, h.rows, List.cons_append], by have := h.le; omega, ?_⟩
  rw [hlength]
  exact h.lt.imp (by omega) (And.imp_right (by omega))

/-- A character in front of the first row, when the place lies in it. -/
theorem widen (h : InRow rest count [] row after) {c : Char}
    (hrows : s.rows = consLine c rest.rows) : InRow s (count + 1) [] (c :: row) after := by
  refine ⟨by rw [hrows, h.rows, List.nil_append, consLine, List.nil_append], Nat.zero_le _, ?_⟩
  simpa [Nat.add_assoc, Nat.add_comm 1] using h.lt

/-- A character in front of the first row, when the place lies in a later one. -/
theorem shift {line : Text} (h : InRow rest count (line :: before) row after) {c : Char}
    (hrows : s.rows = consLine c rest.rows) :
    InRow s (count + 1) ((c :: line) :: before) row after := by
  have hlength : ((c :: line) :: before).flatten.length = (line :: before).flatten.length + 1 := by
    simp only [List.flatten_cons, List.length_append, List.length_cons]
    omega
  refine ⟨by rw [hrows, h.rows, List.cons_append, consLine, List.cons_append], ?_, ?_⟩
  · rw [hlength]
    exact Nat.succ_le_succ h.le
  · rw [hlength]
    exact h.lt.imp (by omega) (And.imp_right (by omega))

end InRow

end Text

namespace Position

/-- A line break moves on to the next line. -/
theorem step_break (p : Position) {c : Char} {rest : Text} (hc : isBreak c = true)
    (hpair : ∀ later, c = '\r' → rest = '\n' :: later → False) :
    p.step c rest = ⟨p.offset + 1, p.line + 1, 1⟩ := by
  refine if_pos ?_
  simp only [isBreak, Bool.or_eq_true, beq_iff_eq] at hc
  refine hc.imp_right fun hreturn => ⟨hreturn, ?_⟩
  intro hhead
  obtain ⟨later, hlater⟩ := List.head?_eq_some_iff.mp hhead
  exact hpair later hreturn hlater

/-- Any other character moves on by a column. -/
theorem step_plain (p : Position) {c : Char} (hc : isBreak c = false) (rest : Text) :
    p.step c rest = ⟨p.offset + 1, p.line, p.column + 1⟩ := by
  refine if_neg ?_
  simp only [isBreak, Bool.or_eq_false_iff, beq_eq_false_iff_ne] at hc
  simp [hc]

/-- Going on from the front of a text leads into one of its rows: each row before it counts as a
line, and the column is counted in it. -/
def Lands (p : Position) (s : Text) (count : Nat) : Prop :=
  ∃ before row after, s.InRow count before row after ∧
    (p.advance count s).line = p.line + before.length ∧
    (p.advance count s).column =
      (if before = [] then p.column else 1) + (count - before.flatten.length)

/-- Without moving the place is in the first row. -/
theorem lands_zero (p : Position) (s : Text) : p.Lands s 0 := by
  obtain ⟨row, after, hrow⟩ := Text.InRow.front s
  exact ⟨[], row, after, hrow, by simp [advance]⟩

/-- Behind a row the count of lines is one higher, and the column starts anew. -/
theorem Lands.behind {p q : Position} {s rest first : Text} {count : Nat} (h : q.Lands rest count)
    (hrows : s.rows = first :: rest.rows) (hline : q.line = p.line + 1) (hcolumn : q.column = 1)
    (hadvance : p.advance (first.length + count) s = q.advance count rest) :
    p.Lands s (first.length + count) := by
  obtain ⟨before, row, after, hrow, hlines, hcolumns⟩ := h
  refine ⟨first :: before, row, after, hrow.behind hrows, ?_, ?_⟩
  · rw [hadvance, hlines, hline, List.length_cons]
    omega
  · rw [hadvance, hcolumns, hcolumn, ite_self, if_neg (List.cons_ne_nil _ _), List.flatten_cons,
      List.length_append]
    omega

/-- Behind a character that breaks no line the column is one higher. -/
theorem Lands.beside {p q : Position} {c : Char} {s rest : Text} {count : Nat}
    (h : q.Lands rest count) (hrows : s.rows = Text.consLine c rest.rows) (hline : q.line = p.line)
    (hcolumn : q.column = p.column + 1)
    (hadvance : p.advance (count + 1) s = q.advance count rest) : p.Lands s (count + 1) := by
  obtain ⟨before, row, after, hrow, hlines, hcolumns⟩ := h
  cases before with
  | nil =>
    refine ⟨[], c :: row, after, hrow.widen hrows, ?_, ?_⟩
    · rw [hadvance, hlines, hline]
    · rw [hadvance, hcolumns, if_pos rfl, if_pos rfl, hcolumn]
      exact Nat.add_right_comm _ _ _
  | cons line before =>
    refine ⟨(c :: line) :: before, row, after, hrow.shift hrows, ?_, ?_⟩
    · rw [hadvance, hlines, hline, List.length_cons, List.length_cons]
    · rw [hadvance, hcolumns, if_neg (List.cons_ne_nil _ _), if_neg (List.cons_ne_nil _ _)]
      simp only [List.flatten_cons, List.length_append, List.length_cons]
      omega

/-- Every place of the text lies in one of its rows. -/
theorem lands {p : Position} {s : Text} {count : Nat} (h : count ≤ s.length) : p.Lands s count := by
  fun_induction Text.rows s generalizing p count with
  | case1 =>
    obtain rfl : count = 0 := by simpa using h
    exact lands_zero p []
  | case2 rest ih =>
    match count with
    | 0 => exact lands_zero p _
    | 1 =>
      have hrow : Text.InRow ('\r' :: '\n' :: rest) 1 [] ['\r', '\n'] (Text.rows rest) :=
        ⟨rfl, Nat.zero_le _, .inl (by decide)⟩
      exact ⟨_, _, _, hrow, by simp [advance, step]⟩
    | count + 2 =>
      have hcount : count ≤ rest.length := by simpa using h
      have hrows : Text.rows ('\r' :: '\n' :: rest) = ['\r', '\n'] :: Text.rows rest := rfl
      have hpast := ih hcount (p := (p.step '\r' ('\n' :: rest)).step '\n' rest)
      have hbehind : p.Lands ('\r' :: '\n' :: rest) (2 + count) :=
        hpast.behind hrows rfl rfl (by rw [Nat.add_comm]; rfl)
      rwa [Nat.add_comm] at hbehind
  | case3 c rest hpair hc ih =>
    cases count with
    | zero => exact lands_zero p _
    | succ count =>
      have hcount : count ≤ rest.length := by simpa using h
      have hrows : Text.rows (c :: rest) = [c] :: Text.rows rest := by
        rw [Text.rows, if_pos hc]
        exact hpair
      have hstep := p.step_break hc hpair
      have hbehind : p.Lands (c :: rest) (1 + count) :=
        (ih hcount (p := p.step c rest)).behind hrows (by rw [hstep]) (by rw [hstep])
          (by rw [Nat.add_comm]; rfl)
      rwa [Nat.add_comm] at hbehind
  | case4 c rest hpair hc ih =>
    cases count with
    | zero => exact lands_zero p _
    | succ count =>
      have hcount : count ≤ rest.length := by simpa using h
      have hrows : Text.rows (c :: rest) = Text.consLine c (Text.rows rest) := by
        rw [Text.rows, if_neg hc]
        exact hpair
      have hstep := p.step_plain (by simpa using hc : isBreak c = false) rest
      exact (ih hcount (p := p.step c rest)).beside hrows (by rw [hstep]) (by rw [hstep]) rfl

/-- The place of an offset of the source is in the row that holds it: its line is the number of
that row, and its column is counted from the front of the row. -/
theorem row_of_ofOffset {source : Text} {offset : Nat} (h : offset ≤ source.length) :
    ∃ before row after, source.InRow offset before row after ∧
      (ofOffset source offset).line = before.length + 1 ∧
      (ofOffset source offset).column = offset - before.flatten.length + 1 := by
  obtain ⟨before, row, after, hrow, hline, hcolumn⟩ := lands (p := start) h
  refine ⟨before, row, after, hrow, by rw [ofOffset, hline]; exact Nat.add_comm _ _, ?_⟩
  rw [ofOffset, hcolumn, start, ite_self]
  exact Nat.add_comm _ _

end Position

end DiagramText
