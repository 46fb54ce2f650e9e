import DiagramText.Proofs.Outcome

/-!
# Programs that look ahead and consume

The grammar uses a reader in five ways only: it looks ahead, it consumes, it
asks whether a line comment ended the line, it repeats a step, and it fails.
`Reader.Looks` says of a program that it is put together in this way.

What a look and a consumption keep is then kept by the whole program, on
success and on failure (`Looks.keeps`).  A change of readers that a look does
not see is seen by no such program (`Looks.shadows`): the comments collected
earlier are such a change (`Looks.recalling`).
-/

namespace DiagramText

namespace Reader

/-- The program is put together from looks ahead, consumptions, questions about the line,
repetitions and failures. -/
inductive Looks : {α : Type} → Parser α → Prop
  | pure {α : Type} (a : α) : Looks (pure a : Parser α)
  | throw {α : Type} (fault : Fault) : Looks (throw fault : Parser α)
  | bind {α β : Type} {p : Parser α} {f : α → Parser β} (head : Looks p)
      (rest : ∀ a, Looks (f a)) : Looks (p >>= f)
  | peek (mode : Mode) : Looks (peek mode)
  | advance (mode : Mode) : Looks (advance mode)
  | line {α : Type} {f : Bool → Parser α} (rest : ∀ ended, Looks (f ended)) :
      Looks (get >>= fun reader => f reader.lineBreak)
  | many {α : Type} {step : Parser (Option α)} (turn : Looks step) : Looks (many step)

namespace Looks

variable {α : Type}

theorem fail (error : SyntaxError) : Looks (fail error : Parser α) :=
  .throw _

/-- A choice between two programs looks and consumes if both do. -/
theorem ite {c : Prop} [Decidable c] {p q : Parser α} (hp : Looks p) (hq : Looks q) :
    Looks (if c then p else q) := by
  by_cases hc : c
  · rwa [if_pos hc]
  · rwa [if_neg hc]

/-- A check that fails with a syntax error, and what follows it. -/
theorem guard {c : Prop} [Decidable c] {error : SyntaxError} {k : PUnit → Parser α}
    (hk : ∀ u, Looks (k u)) : Looks (if c then Reader.fail error >>= k else k ⟨⟩) :=
  ite (.bind (.fail error) hk) (hk ⟨⟩)

theorem peekSameLine (mode : Mode) : Looks (peekSameLine mode) :=
  .bind (.peek mode) fun token => .line fun ended => .pure (if ended then none else some token)

theorem expect (mode : Mode) (mark : Text) : Looks (expect mode mark) :=
  .bind (.peek mode) fun _ => ite (.advance mode) (.fail _)

variable {p : Parser α}

/-! ## What is kept -/

section keeps
variable {I J : Reader → Prop}

/-- A repetition keeps what its step keeps.  The induction is on the turns. -/
theorem manyUpTo_keeps {step : Parser (Option α)} (hfail : ∀ r, I r → J r)
    (hstep : ∀ r, I r → Ends step r (fun _ => I) fun _ => J) (limit : Nat) :
    ∀ r, I r → Ends (manyUpTo step limit) r (fun _ => I) fun _ => J := by
  induction limit with
  | zero => exact fun r hr => hfail r hr
  | succ limit ih =>
      intro r hr
      unfold manyUpTo
      apply (hstep r hr).bind
      intro found r' hr'
      cases found with
      | none => exact hr'
      | some value => exact (ih r' hr').bind fun _ _ hr'' => hr''

/-- What each look and each consumption keeps is kept by the program, and what each of them leaves
behind where it fails is left behind by the program where it fails. -/
theorem keeps (hfail : ∀ r, I r → J r)
    (hpeek : ∀ mode r, I r → Ends (Reader.peek mode) r (fun _ => I) fun _ => J)
    (hadvance : ∀ mode r, I r → Ends (Reader.advance mode) r (fun _ => I) fun _ => J)
    (h : Looks p) : ∀ r, I r → Ends p r (fun _ => I) fun _ => J := by
  induction h with
  | pure a => exact fun r hr => hr
  | throw fault => exact hfail
  | bind _ _ hhead hrest => exact fun r hr => (hhead r hr).bind fun a r' hr' => hrest a r' hr'
  | peek mode => exact hpeek mode
  | advance mode => exact hadvance mode
  | line _ hrest => exact fun r hr => hrest r.lineBreak r hr
  | many _ hturn => exact fun r hr => manyUpTo_keeps hfail hturn _ r hr

end keeps

/-! ## What is not seen -/

section shadows
variable {view : Reader → Reader}

/-- A repetition is seen from the view if its step is. -/
theorem manyUpTo_shadows {step : Parser (Option α)} (hstep : ∀ r, Shadows view step step r)
    (limit : Nat) : ∀ r, Shadows view (manyUpTo step limit) (manyUpTo step limit) r := by
  induction limit with
  | zero => exact fun r => shadows_throw _ r
  | succ limit ih =>
      intro r
      apply (hstep r).bind
      intro found r' _
      cases found with
      | none => exact shadows_pure _ r'
      | some value => exact (ih r').bind fun others r'' _ => shadows_pure _ r''

/-- A change that neither a look, nor a consumption, nor the line, nor the length ahead shows is not
seen by the program. -/
theorem shadows (hpeek : ∀ mode r, Shadows view (Reader.peek mode) (Reader.peek mode) r)
    (hadvance : ∀ mode r, Shadows view (Reader.advance mode) (Reader.advance mode) r)
    (hline : ∀ r, (view r).lineBreak = r.lineBreak) (hahead : ∀ r, (view r).ahead = r.ahead)
    (h : Looks p) : ∀ r, Shadows view p p r := by
  induction h with
  | pure a => exact fun r => shadows_pure a r
  | throw fault => exact fun r => shadows_throw fault r
  | bind _ _ hhead hrest => exact fun r => (hhead r).bind fun a r' _ => hrest a r'
  | peek mode => exact hpeek mode
  | advance mode => exact hadvance mode
  | @line _ f _ hrest =>
      intro r
      have hview : f (view r).lineBreak (view r) = viewed view (f r.lineBreak r) := by
        rw [hline]
        exact hrest r.lineBreak r
      exact hview
  | @many _ step _ hturn =>
      intro r
      have hview := manyUpTo_shadows hturn (r.ahead + 1) r
      unfold Shadows at hview ⊢
      rw [Reader.many, hahead]
      exact hview

end shadows

end Looks

/-! ## Comments collected earlier -/

/-- The reader that still has these comments from before. -/
def recalling (log : List Token) (r : Reader) : Reader :=
  { r with comments := log ++ r.comments }

variable (log : List Token)

theorem readToken_recalling (mode : Mode) (r : Reader) :
    Shadows (recalling log) (readToken mode) (readToken mode) r := by
  unfold Shadows readToken
  cases h : (r.cursor.skip mode).token mode <;> simp [recalling, h, viewed]

theorem collect_recalling (comment : Token) (r : Reader) :
    Shadows (recalling log) (collect comment) (collect comment) r := by
  change EStateM.Result.ok () (Reader.mk _ _ _ _) = EStateM.Result.ok () (recalling log _)
  simp only [recalling, List.append_assoc]

/-- Reading on to a token does not look at the comments collected before.  The induction is on the
turns. -/
theorem fillUpTo_recalling (mode : Mode) (limit : Nat) :
    ∀ r, Shadows (recalling log) (fillUpTo mode limit) (fillUpTo mode limit) r := by
  induction limit with
  | zero => exact fun r => shadows_throw _ r
  | succ limit ih =>
      intro r
      apply (readToken_recalling log mode r).bind
      intro read r' _
      apply shadows_ite
      · intro _
        exact (collect_recalling log read.1 r').bind fun _ r'' _ => ih r''
      · intro _
        rfl

/-- Looking ahead does not see the comments collected before. -/
theorem peek_recalling (mode : Mode) (r : Reader) :
    Shadows (recalling log) (peek mode) (peek mode) r := by
  have hfill : ∀ r, Shadows (recalling log) (fill mode) (fill mode) r := fun r =>
    fillUpTo_recalling log mode _ r
  unfold Shadows peek
  rw [get_bind, get_bind]
  cases hahead : r.lookahead with
  | none =>
      have hsame : (recalling log r).lookahead = none := hahead
      simp only [hsame]
      exact hfill r
  | some lookahead =>
      have hsame : (recalling log r).lookahead = some lookahead := hahead
      simp only [hsame]
      split
      · rfl
      · exact hfill { r with cursor := lookahead.origin, lookahead := none }

/-- Consuming does not see the comments collected before. -/
theorem advance_recalling (mode : Mode) (r : Reader) :
    Shadows (recalling log) (advance mode) (advance mode) r := by
  apply (peek_recalling log mode r).bind
  intro token r' _
  apply shadows_ite
  · intro _
    rfl
  · intro _
    rfl

/-- No program that looks ahead and consumes sees the comments collected before it. -/
theorem Looks.recalling {α : Type} {p : Parser α} (h : Looks p) (r : Reader) :
    Shadows (recalling log) p p r :=
  h.shadows (peek_recalling log) (advance_recalling log) (fun _ => rfl) (fun _ => rfl) r

/-- The comments that were collected stay at the front of those that are collected. -/
theorem Looks.comments {α : Type} {p : Parser α} (h : Looks p) (r : Reader) :
    Ends p r (fun _ r' => r.comments <+: r'.comments) fun _ r' => r.comments <+: r'.comments := by
  have hrecalls : p r = viewed (Reader.recalling r.comments) (p { r with comments := [] }) := by
    have hview := h.recalling r.comments { r with comments := [] }
    rwa [Shadows, Reader.recalling, List.append_nil] at hview
  cases hp : p { r with comments := [] } with
  | ok a r' =>
      rw [hp] at hrecalls
      exact (ends_of_ok hrecalls).mpr (List.prefix_append _ _)
  | error fault r' =>
      rw [hp] at hrecalls
      exact (ends_of_error hrecalls).mpr (List.prefix_append _ _)

end Reader

end DiagramText
