import DiagramText.Proofs.Grammar.Looking
import DiagramText.Proofs.Lexeme.Newline
import DiagramText.Proofs.Reader.Crossing

/-!
# Readers of a text that is continued

A text that ends with a line feed may be continued.  A reader of it stands at the
same place of the longer text (`Reader.extend`), and as long as it does not see
the end every program that looks ahead and consumes does there just what it does
on the shorter text (`Looks.extend`): no token reaches over the line feed.

Where the end is seen (`Reader.Spent`) it stays in sight (`Looks.spent`).  A look
that comes to the end collects comments on its way, and the same look at the
longer text collects them, too, before it goes on or fails
(`peek_extend_comments`).
-/

namespace DiagramText

/-- The text is empty or ends with a line feed. -/
def Text.Ended (s : Text) : Prop :=
  ∀ c, s.getLast? = some c → c = '\n'

namespace Text

variable {s t : Text}

/-- What is left of such a text is one, too. -/
theorem Ended.suffix (h : s.Ended) (ht : t <:+ s) : t.Ended := by
  obtain ⟨front, rfl⟩ := ht
  intro c hc
  apply h c
  rw [List.getLast?_append, hc]
  rfl

/-- Such a text is a line feed behind some text, unless it is empty. -/
theorem Ended.exists_append (h : s.Ended) (hs : s ≠ []) : ∃ front, s = front ++ ['\n'] := by
  obtain ⟨front, c, rfl⟩ := s.eq_nil_or_concat.resolve_left hs
  rw [List.concat_eq_append] at h ⊢
  obtain rfl := h c (by simp)
  exact ⟨front, rfl⟩

theorem ended_append (s : Text) : (s ++ ['\n']).Ended := by
  intro c hc
  simpa [eq_comm] using hc

end Text

/-- What is scanned in such a text, apart from its end, is scanned whatever follows. -/
theorem Mode.scan_extend {mode : Mode} {s : Text} {lexeme : Lexeme} (further : Text) (hs : s.Ended)
    (h : mode.scan s = .ok lexeme) (hkind : lexeme.kind ≠ .eof) :
    mode.scan (s ++ further) = .ok lexeme := by
  obtain ⟨front, rfl⟩ := hs.exists_append (ne_nil_of_scan h hkind)
  rw [List.append_assoc, List.singleton_append]
  exact Mode.scan_ended further h

/-- The position behind some characters does not depend on what follows the text: a carriage return
is never the last of its characters. -/
theorem Position.advance_extend {s : Text} (further : Text) (hs : s.Ended) {count : Nat}
    (hcount : count ≤ s.length) (p : Position) :
    p.advance count (s ++ further) = p.advance count s := by
  induction count generalizing p s with
  | zero => rfl
  | succ count ih =>
      cases s with
      | nil => exact absurd hcount (by simp)
      | cons c s =>
          have hstep : p.step c (s ++ further) = p.step c s := by
            cases s with
            | nil =>
                obtain rfl := hs c rfl
                simp [step]
            | cons d s => rfl
          rw [List.cons_append, advance, advance, hstep]
          exact ih (hs.suffix (List.suffix_cons c s)) (by simpa using hcount) _

/-! ## Cursors -/

/-- The cursor at the same place of the longer text. -/
def Cursor.extend (further : Text) (cursor : Cursor) : Cursor :=
  { cursor with rest := cursor.rest ++ further }

namespace Cursor

variable {cursor : Cursor} {mode : Mode} {token : Token} (further : Text)

/-- The cursor moves to the same place of the longer text. -/
theorem advance_extend (hcursor : cursor.rest.Ended) {count : Nat}
    (hcount : count ≤ cursor.rest.length) :
    (cursor.extend further).advance count = (cursor.advance count).extend further := by
  simp only [advance, extend, List.drop_append_of_le_length hcount,
    Position.advance_extend further hcursor hcount]

/-- Where something is left after the blanks, no further ones are skipped. -/
theorem skip_extend (hcursor : cursor.rest.Ended) (hleft : (cursor.skip mode).rest ≠ []) :
    (cursor.extend further).skip mode = (cursor.skip mode).extend further := by
  rw [skip, advance_rest] at hleft
  have hlt : Text.run mode.skips cursor.rest < cursor.rest.length := by
    rwa [ne_eq, List.drop_eq_nil_iff, Nat.not_le] at hleft
  have hrun : Text.run mode.skips (cursor.extend further).rest = Text.run mode.skips cursor.rest :=
    Text.run_append_of_lt further hlt
  rw [skip, skip, hrun, advance_extend further hcursor (Nat.le_of_lt hlt)]

/-- The same token is cut, unless it is the end. -/
theorem token_extend (hcursor : cursor.rest.Ended) (h : cursor.token mode = .ok token)
    (hkind : token.kind ≠ .eof) : (cursor.extend further).token mode = .ok token := by
  obtain ⟨lexeme, hscan, rfl⟩ := token_eq_ok.mp h
  have hle := (Mode.scan_bounds hscan).1
  apply token_eq_ok.mpr
  refine ⟨lexeme, Mode.scan_extend further hcursor hscan hkind, ?_⟩
  rw [extend, List.take_append_of_le_length hle]
  rfl

/-- After the blanks the same token is cut at the same place, unless it is the end. -/
theorem skip_token_extend (hcursor : cursor.rest.Ended)
    (h : (cursor.skip mode).token mode = .ok token) (hkind : token.kind ≠ .eof) :
    (cursor.extend further).skip mode = (cursor.skip mode).extend further ∧
      ((cursor.extend further).skip mode).token mode = .ok token ∧
      ((cursor.extend further).skip mode).advance token.text.length =
        ((cursor.skip mode).advance token.text.length).extend further := by
  obtain ⟨hscan, _, _⟩ := scan_of_token h
  have hhere : (cursor.skip mode).rest.Ended := by
    rw [skip_rest]
    exact hcursor.suffix (mode.strip_suffix _)
  have hskip := skip_extend further hcursor (Mode.ne_nil_of_scan hscan hkind)
  rw [hskip]
  exact ⟨rfl, token_extend further hhere h hkind,
    advance_extend further hhere (Mode.scan_bounds hscan).1⟩

end Cursor

namespace Reader

/-- The reader at the same place of the longer text. -/
def extend (further : Text) (r : Reader) : Reader :=
  { r with
    cursor := r.cursor.extend further
    lookahead := r.lookahead.map fun ahead => { ahead with origin := ahead.origin.extend further } }

/-- At the front of the text a reader is at the front of the longer one. -/
theorem extend_ofText (source further : Text) :
    (ofText source).extend further = .ofText (source ++ further) := rfl

/-- The reader has the end of its text ahead. -/
def Spent (r : Reader) : Prop :=
  ∃ mode token, r.Shows mode token ∧ token.kind = .eof

variable {r s : Reader} {mode : Mode} {token : Token} {further : Text}

/-! ## Reading on -/

/-- Behind a comment the text still ends with a line feed. -/
theorem ended_past (h : r.cursor.rest.Ended) (token : Token) :
    (r.past (r.cursor.skip mode) token).cursor.rest.Ended := by
  apply h.suffix
  rw [past, Cursor.advance_rest, Cursor.skip_rest]
  exact (List.drop_suffix _ _).trans (mode.strip_suffix _)

section turns
variable (hr : r.cursor.rest.Ended) (htoken : (r.cursor.skip mode).token mode = .ok token)

include hr htoken

/-- A turn that collects a comment collects it in the longer text. -/
theorem fillUpTo_extend_past (hcomment : token.kind.isComment = true) (limit : Nat) :
    fillUpTo mode (limit + 1) (r.extend further) =
      fillUpTo mode limit ((r.past (r.cursor.skip mode) token).extend further) := by
  have hkind : token.kind ≠ .eof := by
    intro heof
    simp [heof, TokenKind.isComment] at hcomment
  obtain ⟨hskip, hsame, hadvance⟩ := Cursor.skip_token_extend further hr htoken hkind
  have hcursor : (r.extend further).cursor = r.cursor.extend further := rfl
  have hpast : (r.extend further).past ((r.cursor.extend further).skip mode) token =
      (r.past (r.cursor.skip mode) token).extend further := by
    simp only [past, extend, hadvance]
  rw [fillUpTo_succ, hcursor, hsame, ← hpast]
  simp only [hcomment, if_true]

/-- A turn that keeps a token ahead keeps it ahead in the longer text, unless it is the end. -/
theorem fillUpTo_extend_facing (hplain : token.kind.isComment = false) (hkind : token.kind ≠ .eof)
    (limit : Nat) :
    fillUpTo mode (limit + 1) (r.extend further) =
      .ok token ((r.facing mode (r.cursor.skip mode) token).extend further) := by
  obtain ⟨hskip, hsame, hadvance⟩ := Cursor.skip_token_extend further hr htoken hkind
  have hcursor : (r.extend further).cursor = r.cursor.extend further := rfl
  have hfacing : (r.extend further).facing mode ((r.cursor.extend further).skip mode) token =
      (r.facing mode (r.cursor.skip mode) token).extend further := by
    simp only [facing, extend, hadvance, Option.map_some]
    rw [hskip]
  rw [fillUpTo_succ, hcursor, hsame, ← hfacing]
  simp only [hplain, Bool.false_eq_true, if_false]

end turns

/-- Reading on comes to the same token of the longer text, however many more turns are allowed, or
it comes to the end and goes on behind the same comments.  The induction is on the turns. -/
theorem fillUpTo_extend (further : Text) (limit : Nat) (hahead : r.lookahead = none) (hr : r.cursor.rest.Ended)
    (h : fillUpTo mode limit r = .ok token s) {limit' : Nat} (hlimit : limit ≤ limit') :
    (token.kind ≠ .eof ∧
        fillUpTo mode limit' (r.extend further) = .ok token (s.extend further)) ∨
      (token.kind = .eof ∧ ∃ (left : Nat) (t : Reader), t.lookahead = none ∧
        t.comments = s.comments ∧ fillUpTo mode limit' (r.extend further) = fillUpTo mode left t) := by
  induction limit generalizing r limit' with
  | zero => cases h
  | succ limit ih =>
      obtain ⟨limit', rfl⟩ : ∃ n, limit' = n + 1 := ⟨limit' - 1, by omega⟩
      rw [fillUpTo_succ] at h
      cases htoken : (r.cursor.skip mode).token mode with
      | error error =>
          rw [htoken] at h
          cases h
      | ok found =>
          rw [htoken] at h
          simp only at h
          by_cases hcomment : found.kind.isComment = true
          · rw [if_pos hcomment] at h
            rw [fillUpTo_extend_past hr htoken hcomment]
            exact ih (r := r.past (r.cursor.skip mode) found) hahead (ended_past hr found) h
              (by omega)
          · rw [if_neg hcomment] at h
            cases h
            by_cases hkind : token.kind = .eof
            · exact .inr ⟨hkind, limit' + 1, r.extend further, by simp [extend, hahead], rfl, rfl⟩
            · have hplain : token.kind.isComment = false := Bool.eq_false_iff.mpr hcomment
              exact .inl ⟨hkind, fillUpTo_extend_facing hr htoken hplain hkind limit'⟩

/-- Reading on keeps the comments that were collected. -/
theorem fillUpTo_comments (mode : Mode) (limit : Nat) (hahead : r.lookahead = none) :
    Ends (fillUpTo mode limit) r (fun _ s => r.comments <+: s.comments)
      fun _ s => r.comments <+: s.comments := by
  apply fillUpTo_along (fun s => r.comments <+: s.comments) _ _ _ _ limit r hahead
  · exact List.prefix_refl _
  · exact fun _ h => h
  · exact fun _ _ _ h _ => h
  · exact fun _ _ _ h _ _ => h.trans (List.prefix_append _ _)
  · exact fun _ _ _ h _ _ => h

/-! ## Looking ahead -/

theorem ended_rewound (h : r.text.Ended) : r.rewound.cursor.rest.Ended := by
  rwa [text_eq_front] at h

/-- Putting the token ahead back is the same in the longer text. -/
theorem rewound_extend (further : Text) (r : Reader) :
    (r.extend further).rewound = r.rewound.extend further := by
  unfold rewound front extend
  cases r.lookahead <;> rfl

/-- A reader that does not see the end is sound on the longer text, too. -/
theorem Sound.extend (hr : r.Sound) (hended : r.text.Ended) (hspent : ¬ r.Spent) (further : Text) :
    (r.extend further).Sound := by
  refine ⟨?_, hr.comments⟩
  intro lookahead' hlookahead'
  obtain ⟨ahead, hahead, rfl⟩ := Option.map_eq_some_iff.mp hlookahead'
  obtain ⟨hstrip, htoken, hplain, hcursor⟩ := hr.lookahead ahead hahead
  have hkind : ahead.token.kind ≠ .eof := fun heof => hspent ⟨_, _, ⟨_, hahead⟩, heof⟩
  have horigin : ahead.origin.rest.Ended := by simpa [text, hahead] using hended
  obtain ⟨hscan, _, _⟩ := Cursor.scan_of_token htoken
  have hleft : ahead.mode.strip ahead.origin.rest ≠ [] := by
    rw [hstrip]
    exact Mode.ne_nil_of_scan hscan hkind
  refine ⟨?_, Cursor.token_extend further horigin htoken hkind, hplain, ?_⟩
  · have hsame := Mode.strip_append_of_ne_nil further hleft
    rwa [hstrip] at hsame
  · rw [Cursor.advance_extend further horigin (Mode.scan_bounds hscan).1, ← hcursor]
    rfl

/-- Where nothing is ahead the end is not seen. -/
theorem not_spent_of_standing (h : r.lookahead = none) : ¬ r.Spent := by
  rintro ⟨_, _, ⟨_, hahead⟩, _⟩
  cases h.symm.trans hahead

/-- What a reader has ahead is the end, if it sees that. -/
theorem Spent.eof (h : r.Spent) (hshows : r.Shows mode token) : token.kind = .eof := by
  obtain ⟨_, _, ⟨_, hseen⟩, heof⟩ := h
  obtain ⟨_, hahead⟩ := hshows
  cases hseen.symm.trans hahead
  exact heof

/-- A token stays ahead in the longer text. -/
theorem Shows.extend (h : r.Shows mode token) (further : Text) :
    (r.extend further).Shows mode token := by
  obtain ⟨origin, hahead⟩ := h
  exact ⟨origin.extend further, by rw [Reader.extend, hahead]; rfl⟩

/-- Behind the end of its text a reader has nothing left. -/
theorem Spent.text (h : r.Spent) (hr : r.Sound) : r.text = [] := by
  obtain ⟨mode, token, hshows, heof⟩ := h
  exact (hshows.eof_iff hr).mp heof

section peek
variable (hr : r.Sound) (hended : r.text.Ended) (h : peek mode r = .ok token s)

include hr hended h

/-- A look at the longer text sees the same token, or the look came to the end and the longer text is
read on behind the same comments. -/
theorem peek_extend_or (further : Text) (hspent : ¬ r.Spent) :
    (token.kind ≠ .eof ∧ peek mode (r.extend further) = .ok token (s.extend further)) ∨
      (token.kind = .eof ∧ ∃ (left : Nat) (t : Reader), t.lookahead = none ∧
        t.comments = s.comments ∧ peek mode (r.extend further) = fillUpTo mode left t) := by
  rw [peek_eq_fill hr] at h
  rw [peek_eq_fill (hr.extend hended hspent further), rewound_extend]
  have hlimit : r.rewound.cursor.rest.length + 1 ≤ (r.rewound.extend further).cursor.rest.length + 1 := by
    simp [extend, Cursor.extend]
  exact fillUpTo_extend further _ rfl (ended_rewound hended) h hlimit

/-- A look at the longer text sees the same token, unless it is the end. -/
theorem peek_extend (hkind : token.kind ≠ .eof) :
    peek mode (r.extend further) = .ok token (s.extend further) := by
  have hspent : ¬ r.Spent := fun hspent => hkind (((peek_spec hr mode).ok h).of_nil (hspent.text hr)).1
  obtain ⟨_, hsame⟩ | ⟨heof, _⟩ := peek_extend_or hr hended h further hspent
  · exact hsame
  · exact absurd heof hkind

/-- Where a look comes to the end of the text, the longer text is looked at past the same comments at
least. -/
theorem peek_extend_comments (hspent : ¬ r.Spent) (hkind : token.kind = .eof) :
    Ends (peek mode) (r.extend further) (fun _ s' => s.comments <+: s'.comments)
      fun _ s' => s.comments <+: s'.comments := by
  obtain ⟨hplain, _⟩ | ⟨_, left, t, hahead, hcomments, hsame⟩ :=
    peek_extend_or hr hended h further hspent
  · exact absurd hkind hplain
  · rw [← hcomments]
    exact (ends_congr hsame).mpr (fillUpTo_comments mode left hahead)

end peek

/-! ## Programs -/

/-- Consuming is looking ahead, and then consuming the token ahead or staying at the end. -/
theorem ends_advance {post : Token → Reader → Prop} {failed : Fault → Reader → Prop}
    (h : Ends (peek mode) r (fun token s =>
      (token.kind = .eof → post token s) ∧ (token.kind ≠ .eof → post token s.consumed)) failed) :
    Ends (advance mode) r post failed := by
  unfold advance
  refine h.bind ?_
  rintro token s ⟨heof, hplain⟩
  by_cases hkind : token.kind = .eof
  · simp only [hkind, ne_eq, not_true_eq_false, if_false, ends_pure]
    exact heof hkind
  · simp only [ne_eq, hkind, not_false_eq_true, if_true, ends_bind, ends_modify, ends_pure]
    exact hplain hkind

/-- The reader is sound, and its text is empty or ends with a line feed. -/
structure Lined (r : Reader) : Prop where
  sound : r.Sound
  ended : r.text.Ended

/-- A look at such a text leaves one. -/
theorem peek_lined (mode : Mode) (r : Reader) (hr : r.Lined) :
    Ends (peek mode) r (fun token s => s.Shows mode token ∧ s.Lined) fun _ _ => True := by
  refine (peek_spec hr.sound mode).mono ?_ fun _ _ _ => trivial
  intro token s hsees
  obtain ⟨_, _, hfinds, _⟩ := hsees.finds
  exact ⟨hsees.shows, hsees.sound, hr.ended.suffix hfinds.suffix⟩

/-- Behind the token ahead such a text is left. -/
theorem Lined.consumed (hr : r.Lined) (hshows : r.Shows mode token) : r.consumed.Lined := by
  refine ⟨hr.sound.consumed, ?_⟩
  rw [hshows.text_consumed hr.sound]
  exact hr.ended.suffix (List.drop_suffix _ _)

/-- Consuming a token leaves such a text. -/
theorem advance_lined (mode : Mode) (r : Reader) (hr : r.Lined) :
    Ends (advance mode) r (fun _ s => s.Lined) fun _ _ => True := by
  refine ends_advance ((peek_lined mode r hr).imp ?_)
  rintro token s ⟨hshows, hs⟩
  exact ⟨fun _ => hs, fun _ => hs.consumed hshows⟩

/-- The end that is in sight stays in sight. -/
theorem peek_spent (mode : Mode) (r : Reader) (hr : r.Sound ∧ r.Spent) :
    Ends (peek mode) r (fun token s => token.kind = .eof ∧ s.Sound ∧ s.Spent) fun _ _ => True := by
  refine (peek_spec hr.1 mode).mono ?_ fun _ _ _ => trivial
  intro token s hsees
  have heof := (hsees.of_nil (hr.2.text hr.1)).1
  exact ⟨heof, hsees.sound, mode, token, hsees.shows, heof⟩

/-- Where the end is in sight consuming leaves it in sight. -/
theorem advance_spent (mode : Mode) (r : Reader) (hr : r.Sound ∧ r.Spent) :
    Ends (advance mode) r (fun _ s => s.Sound ∧ s.Spent) fun _ _ => True := by
  refine ends_advance ((peek_spent mode r hr).imp ?_)
  rintro token s ⟨heof, hs⟩
  exact ⟨fun _ => hs, fun hkind => absurd heof hkind⟩

namespace Looks

variable {α : Type} {p : Parser α}

/-- A program leaves a reader sound, on what is left of its text. -/
theorem lined (h : Looks p) : ∀ r, r.Lined → Ends p r (fun _ s => s.Lined) fun _ _ => True :=
  h.keeps (fun _ _ => trivial) (fun mode r hr => (peek_lined mode r hr).imp fun _ _ hs => hs.2)
    advance_lined

/-- A program leaves the end in sight. -/
theorem spent (h : Looks p) :
    ∀ r, r.Sound ∧ r.Spent → Ends p r (fun _ s => s.Sound ∧ s.Spent) fun _ _ => True :=
  h.keeps (fun _ _ => trivial) (fun mode r hr => (peek_spent mode r hr).imp fun _ _ hs => hs.2)
    advance_spent

/-- Where the program has not come to see the end, it had not seen it before. -/
theorem not_spent {a : α} (h : Looks p) (hr : r.Sound) (hrun : p r = .ok a s) (hs : ¬ s.Spent) :
    ¬ r.Spent :=
  fun hspent => hs ((h.spent r ⟨hr, hspent⟩).ok hrun).2

/-- What the program gives without seeing the end, it gives on the longer text. -/
def Extends (further : Text) (p : Parser α) : Prop :=
  ∀ r a s, r.Lined → p r = .ok a s → ¬ s.Spent → p (r.extend further) = .ok a (s.extend further)

/-- What is consumed before the end is consumed in the longer text. -/
theorem advance_extends (further : Text) (mode : Mode) : Extends further (Reader.advance mode) := by
  intro r token s hr hrun hs
  unfold Reader.advance at hrun ⊢
  obtain ⟨found, t, hpeek, hrun⟩ := bind_eq_ok.mp hrun
  have hshows := ((peek_lined mode r hr).ok hpeek).1
  by_cases hkind : found.kind = .eof
  · rw [if_neg (fun hne => hne hkind)] at hrun
    cases hrun
    exact absurd ⟨mode, _, hshows, hkind⟩ hs
  · rw [bind_ok (peek_extend hr.sound hr.ended hpeek hkind)]
    rw [if_pos hkind] at hrun ⊢
    cases hrun
    rfl

/-- The induction is on the turns; the longer text allows for more of them. -/
theorem manyUpTo_extends {step : Parser (Option α)} (hlooks : Looks step)
    (hstep : Extends further step) (limit : Nat) {limit' : Nat} (hlimit : limit ≤ limit')
    {found : List α} (hr : r.Lined) (hrun : manyUpTo step limit r = .ok found s)
    (hs : ¬ s.Spent) :
    manyUpTo step limit' (r.extend further) = .ok found (s.extend further) := by
  induction limit generalizing r found limit' with
  | zero => cases hrun
  | succ limit ih =>
      obtain ⟨limit', rfl⟩ : ∃ n, limit' = n + 1 := ⟨limit' - 1, by omega⟩
      unfold manyUpTo at hrun ⊢
      obtain ⟨first, t, hfirst, hrun⟩ := bind_eq_ok.mp hrun
      have ht := (hlooks.lined r hr).ok hfirst
      cases first with
      | none =>
          cases hrun
          rw [bind_ok (hstep r none _ hr hfirst hs)]
          rfl
      | some value =>
          obtain ⟨others, u, hothers, hrun⟩ := bind_eq_ok.mp hrun
          cases hrun
          have hspent : ¬ t.Spent := fun hspent =>
            hs ((manyUpTo_keeps (J := fun _ => True) (fun _ _ => trivial) hlooks.spent limit t
              ⟨ht.sound, hspent⟩).ok hothers).2
          rw [bind_ok (hstep r _ t hr hfirst hspent)]
          simp only
          rw [bind_ok (ih (by omega) ht hothers)]
          rfl

/-- A program that looks ahead and consumes does on the longer text what it does on the shorter one,
as long as it does not see the end of that.  The induction is on how it is put together. -/
theorem extend (further : Text) (h : Looks p) : Extends further p := by
  induction h with
  | pure a =>
      intro r b s _ hrun _
      cases hrun
      rfl
  | throw fault =>
      intro r b s _ hrun _
      cases hrun
  | bind head rest hhead hrest =>
      intro r b s hr hrun hs
      obtain ⟨a, t, hfirst, hrun⟩ := bind_eq_ok.mp hrun
      have ht := (head.lined r hr).ok hfirst
      rw [bind_ok (hhead r a t hr hfirst ((rest a).not_spent ht.sound hrun hs))]
      exact hrest a t b s ht hrun hs
  | peek mode =>
      intro r token s hr hrun hs
      have hshows := ((peek_lined mode r hr).ok hrun).1
      exact peek_extend hr.sound hr.ended hrun fun heof => hs ⟨mode, token, hshows, heof⟩
  | advance mode => exact advance_extends further mode
  | line rest hrest =>
      intro r b s hr hrun hs
      exact hrest r.lineBreak r b s hr hrun hs
  | many turn hturn =>
      intro r found s hr hrun hs
      refine manyUpTo_extends turn hturn (r.ahead + 1) ?_ hr hrun hs
      rw [ahead_eq, ahead_eq, text_eq_front, text_eq_front]
      unfold front Reader.extend
      cases r.lookahead <;> simp [Cursor.extend]

end Looks

end Reader

end DiagramText
