import Mathlib.Logic.Relation
import DiagramText.Proofs.Grammar.Looking
import DiagramText.Proofs.Grammar.Steps
import DiagramText.Proofs.Reader.Calls

/-!
# What happens to a reader

While a source is read six things happen to its reader (`Reader.Shift`): it goes
back to the token ahead because another mode asks, it stops at a fault, it
collects a comment, it keeps a token ahead, it consumes that token, and its
comments are taken.  Everything else is put together from these, statements as
well as turns, whether or not they fail (`Looks.goes`, `turnsUpTo_goes`).

The cursor goes back with the first of the six, and the token that is kept ahead
is behind the cursor, too.  The place of the reader does neither: it is where
the text begins that was not consumed, and no shift moves it back
(`Shift.forward`).
-/

namespace DiagramText

open Grammar Reader

namespace Reader

/-- One thing that happens to a reader. -/
inductive Shift : Reader → Reader → Prop
  /-- Another mode asks, and what is ahead has to be read again. -/
  | rewind (r : Reader) : Shift r r.rewound
  /-- No token begins after the blanks. -/
  | fault {r : Reader} {mode : Mode} {error : LexError} (free : r.lookahead = none)
      (failed : (r.cursor.skip mode).token mode = .error error) :
      Shift r (r.standing (r.cursor.skip mode))
  | comment {r : Reader} {mode : Mode} {token : Token} (free : r.lookahead = none)
      (read : (r.cursor.skip mode).token mode = .ok token)
      (isComment : token.kind.isComment = true) : Shift r (r.past (r.cursor.skip mode) token)
  | face {r : Reader} {mode : Mode} {token : Token} (free : r.lookahead = none)
      (read : (r.cursor.skip mode).token mode = .ok token)
      (plain : token.kind.isComment = false) : Shift r (r.facing mode (r.cursor.skip mode) token)
  /-- The end of the source is never consumed. -/
  | consume {r : Reader} {mode : Mode} {token : Token} (shows : r.Shows mode token)
      (kind : token.kind ≠ .eof) : Shift r r.consumed
  | take (r : Reader) : Shift r r.emptied

/-- The one reader becomes the other by shifts. -/
abbrev Goes : Reader → Reader → Prop :=
  Relation.ReflTransGen Shift

/-- Shifts lead from the front of the source to this reader. -/
def Arises (source : Text) (r : Reader) : Prop :=
  (ofText source).Goes r

variable {source : Text} {r r' : Reader} {mode : Mode} {token : Token}

/-- A shift leaves a reader on its source, and does not move its place back. -/
theorem Shift.forward (h : Shift r r') (hr : r.Sound) (hplaced : r.Placed source) :
    (r'.Sound ∧ r'.Placed source) ∧ r.place ≤ r'.place := by
  cases h with
  | rewind => exact ⟨⟨hr.rewound, hplaced⟩, Int.le_refl _⟩
  | @fault mode _ free failed =>
      have hyields := standing_yields free hr hplaced mode
      exact ⟨⟨hyields.sound, hyields.placed⟩, hyields.place_le⟩
  | comment free read isComment =>
      have hyields := past_yields free hr hplaced read isComment
      exact ⟨⟨hyields.sound, hyields.placed⟩, hyields.place_le⟩
  | face free read plain =>
      have hyields := facing_yields free hr hplaced read plain
      exact ⟨⟨hyields.sound, hyields.placed⟩, hyields.place_le⟩
  | consume shows =>
      have hmoves := shows.moves_consumed hr hplaced
      exact ⟨⟨hmoves.sound, hmoves.placed⟩, hmoves.le⟩
  | take => exact ⟨⟨hr.emptied, hplaced⟩, Int.le_refl _⟩

/-- What arises stands on the source.  The induction is on the shifts. -/
theorem Arises.stands (h : Arises source r) : r.Sound ∧ r.Placed source := by
  induction h with
  | refl => exact ⟨sound_ofText source, placed_ofText source⟩
  | tail _ hlast ih => exact (hlast.forward ih.1 ih.2).1

theorem Arises.goes (h : Arises source r) (hgoes : r.Goes r') : Arises source r' :=
  Relation.ReflTransGen.trans h hgoes

/-- Reading on goes by shifts to the token that is kept ahead, or to the fault. -/
theorem fillUpTo_goes (mode : Mode) (limit : Nat) (r : Reader) (hr : r.lookahead = none) :
    Ends (fillUpTo mode limit) r (fun token r' => r.Goes r' ∧ r'.Shows mode token)
      fun _ r' => r.Goes r' := by
  refine fillUpTo_along r.Goes ?_ ?_ ?_ ?_ limit r hr .refl
  · exact fun _ hgoes => hgoes
  · exact fun r' error free hgoes failed => hgoes.tail (.fault free failed)
  · exact fun r' token free hgoes read isComment => hgoes.tail (.comment free read isComment)
  · exact fun r' token free hgoes read plain => ⟨hgoes.tail (.face free read plain), _, rfl⟩

/-- A look goes by shifts. -/
theorem peek_goes (mode : Mode) (r : Reader) :
    Ends (peek mode) r (fun token r' => r.Goes r' ∧ r'.Shows mode token) fun _ r' => r.Goes r' := by
  simp only [peek, ends_bind, ends_get]
  cases hl : r.lookahead with
  | none => exact fillUpTo_goes mode _ r hl
  | some lookahead =>
      refine ends_ite.mpr ⟨?_, fun _ => ?_⟩
      · rintro rfl
        exact ⟨.refl, _, hl⟩
      · have hrewound : r.rewound = { r with cursor := lookahead.origin, lookahead := none } := by
          simp [Reader.rewound, front, hl]
        rw [ends_bind, ends_set, ← hrewound]
        refine (fillUpTo_goes mode _ r.rewound rfl).mono ?_ fun _ _ hgoes => .head (.rewind r) hgoes
        exact fun _ _ h => ⟨.head (.rewind r) h.1, h.2⟩

/-- So does a consumption. -/
theorem advance_goes (mode : Mode) (r : Reader) :
    Ends (advance mode) r (fun _ r' => r.Goes r') fun _ r' => r.Goes r' := by
  unfold advance
  refine (peek_goes mode r).bind ?_
  rintro token r' ⟨hgoes, hshows⟩
  by_cases hkind : token.kind = .eof
  · simpa [hkind] using hgoes
  · simp only [ne_eq, hkind, not_false_eq_true, if_true, ends_bind, ends_modify, ends_pure]
    exact hgoes.tail (.consume hshows hkind)

/-- Whatever is put together from looks and consumptions goes by shifts. -/
theorem Looks.goes {α : Type} {p : Parser α} (h : Looks p) (r : Reader) :
    Ends p r (fun _ r' => r.Goes r') fun _ r' => r.Goes r' := by
  refine h.keeps (fun _ hgoes => hgoes) ?_ ?_ r .refl
  · intro mode r' hgoes
    exact (peek_goes mode r').mono (fun _ _ h => hgoes.trans h.1) fun _ _ h => hgoes.trans h
  · intro mode r' hgoes
    exact (advance_goes mode r').both fun _ h => hgoes.trans h

end Reader

namespace Grammar

variable {config : Config} {S T : Session} {token : Token} {again : Bool} {fault : Fault}

theorem Acts.goes (h : Acts config token S again T) (hS : Settled S token) :
    S.reader.Goes T.reader := by
  cases h with
  | terminator kind => exact .single (.consume hS.shows (by simp [kind]))
  | stop => exact .refl
  | close brace blocks finished =>
      have hfirst : Shift S.reader S.reader.consumed :=
        .consume hS.shows (Token.kind_ne_eof_of_isPunct brace)
      exact .head hfirst ((finishBlock_looks.goes _).ok finished)
  | item _ read => exact (statement_looks.goes _).ok read
  | opening _ read _ => exact (statement_looks.goes _).ok read

theorem Breaks.goes (h : Breaks config token S fault T) (hS : Settled S token) :
    S.reader.Goes T.reader := by
  cases h with
  | unclosed => exact .refl
  | stray => exact .refl
  | close brace blocks failed =>
      have hfirst : Shift S.reader S.reader.consumed :=
        .consume hS.shows (Token.kind_ne_eof_of_isPunct brace)
      exact .head hfirst ((finishBlock_looks.goes _).error failed)
  | statement failed => exact (statement_looks.goes _).error failed
  | tooDeep read _ => exact (statement_looks.goes _).ok read

/-- A turn goes by shifts, and so it does up to where it fails. -/
theorem turn_goes (hS : S.reader.Sound) :
    Ends (turn config) S (fun _ T => S.reader.Goes T.reader) fun _ T => S.reader.Goes T.reader := by
  cases hpeek : peek .declaration S.reader with
  | error fault r =>
      exact (ends_of_error (turn_of_peek_error hpeek)).mpr ((peek_goes _ _).error hpeek)
  | ok token r =>
      have hlooked := ((peek_goes .declaration S.reader).ok hpeek).1
      have hplaced : S.reader.Goes (settled config r S.scopes).reader := hlooked.tail (.take r)
      have hsettled : Settled (settled config r S.scopes) token :=
        settled_of_sees ((peek_spec hS .declaration).ok hpeek)
      refine (ends_congr (turn_of_peek hpeek)).mpr ((act_ends hsettled).mono ?_ ?_)
      · exact fun _ _ hacts => hplaced.trans (hacts.goes hsettled)
      · exact fun _ _ hbreaks => hplaced.trans (hbreaks.goes hsettled)

/-- All turns go by shifts, however many are allowed.  The induction is on their number. -/
theorem turnsUpTo_goes (limit : Nat) (hS : S.reader.Sound) :
    Ends (turnsUpTo config limit) S (fun _ T => S.reader.Goes T.reader)
      fun _ T => S.reader.Goes T.reader := by
  induction limit generalizing S with
  | zero => exact .refl
  | succ limit ih =>
      unfold turnsUpTo
      cases hturn : turn config S with
      | error fault T => exact (ends_of_error (bind_error hturn)).mpr ((turn_goes hS).error hturn)
      | ok again T =>
          have hfirst := (turn_goes hS).ok hturn
          have hT := ((turn_spec hS).ok hturn).1
          rw [ends_congr (bind_ok hturn)]
          cases again with
          | false => exact hfirst
          | true =>
              exact (ih hT).both fun _ h => hfirst.trans h

end Grammar

end DiagramText
