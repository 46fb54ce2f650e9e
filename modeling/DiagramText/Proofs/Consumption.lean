import DiagramText.Proofs.Failures
import DiagramText.Proofs.Grammar.Shifts
import DiagramText.Proofs.Reader.Relook

/-!
# Reading ends by consumption

A loop of the parser is given by its turn and by what follows it: the loop is
left with a value, or another turn follows (`Loop`).  If every turn that another
one follows leaves the place of the reader further on, the loop is over after no
more turns than there are characters ahead, and one more, whatever number of
turns it is allowed (`Loop.Consumes.of_turns`).

That is so of the turns over the scopes, of the repetitions for the names of an
expression (`expressionFrom_eq`), for fields (`fields_eq`), for the words between
parentheses (`argumentList_eq`) and for constraints (`constraints_eq`), and of
reading on past comments, from whatever reader a source can lead to
(`Document.ofText_consumption`).  The cursor would not do as a measure: it goes
back whenever another mode asks for what is ahead.
-/

namespace DiagramText

open Grammar Reader

/-- A loop that may take a limited number of turns.  After a turn it is left with a value, or goes on
and makes its own value from that of the further turns. -/
structure Loop (σ β γ : Type) where
  turn : EStateM Fault σ β
  follow : β → γ ⊕ (γ → γ)
  upTo : (limit : Nat) → EStateM Fault σ γ
  upTo_succ : ∀ limit s, upTo (limit + 1) s =
    (turn >>= fun found =>
      match follow found with
      | .inl value => pure value
      | .inr complete => upTo limit >>= fun value => pure (complete value)) s

namespace Loop

variable {σ β γ : Type}

/-- From any state in which the loop begins a turn goes by shifts, and if another turn follows it has moved
the place on.  So the loop ends before its turns run out, whenever more of them are allowed than there
are characters ahead, and how many are allowed makes no difference. -/
structure Consumes (loop : Loop σ β γ) (begins : σ → Prop) (reader : σ → Reader) : Prop where
  turn : ∀ s, begins s → Ends loop.turn s
    (fun found s' => (reader s).Goes (reader s') ∧
      ((loop.follow found).isRight = true → begins s' ∧ (reader s).place < (reader s').place))
    fun fault s' => (reader s).Goes (reader s') ∧ fault ≠ .stalled
  ends : ∀ limit s, begins s → (reader s).ahead < limit →
    Ends (loop.upTo limit) s (fun _ _ => True) fun fault _ => fault ≠ .stalled
  steady : ∀ limit limit' s, begins s → (reader s).ahead < limit → (reader s).ahead < limit' →
    loop.upTo limit s = loop.upTo limit' s

end Loop

namespace Reader

variable {source : Text} {r r' : Reader}

/-- What is not consumed reaches from the place to the end of the source. -/
theorem Placed.place_add_ahead (h : r.Placed source) : r.place + r.ahead = source.length := by
  have hlength := congrArg List.length h.rest
  have hle := h.le
  rw [← text_eq_front, ← ahead_eq, List.length_drop] at hlength
  rw [place]
  omega

/-- Where less is ahead the place is further on. -/
theorem Arises.place_lt (h : Arises source r) (h' : Arises source r') (hless : r'.ahead < r.ahead) :
    r.place < r'.place := by
  have hsum := h.stands.2.place_add_ahead
  have hsum' := h'.stands.2.place_add_ahead
  omega

end Reader

namespace Loop.Consumes

variable {σ β γ : Type} {source : Text} {loop : Loop σ β γ} {begins : σ → Prop} {reader : σ → Reader}

/-- A loop consumes if its turns do.  The inductions are on the number of turns that are allowed: after
each turn fewer of them are, and less is ahead. -/
theorem of_turns (harises : ∀ s, begins s → Arises source (reader s))
    (hturn : ∀ s, begins s → Ends loop.turn s
      (fun found s' => (reader s).Goes (reader s') ∧
        ((loop.follow found).isRight = true → begins s' ∧ (reader s').ahead < (reader s).ahead))
      fun fault s' => (reader s).Goes (reader s') ∧ fault ≠ .stalled) :
    loop.Consumes begins reader where
  turn s hs := by
    refine (hturn s hs).imp ?_
    rintro found s' ⟨hgoes, hagain⟩
    refine ⟨hgoes, fun hfollow => ?_⟩
    obtain ⟨hbegins, hless⟩ := hagain hfollow
    exact ⟨hbegins, (harises s hs).place_lt (harises s' hbegins) hless⟩
  ends limit := by
    induction limit with
    | zero =>
        intro s _ hlimit
        omega
    | succ limit ih =>
        intro s hs hlimit
        rw [ends_congr (loop.upTo_succ limit s)]
        refine ((hturn s hs).mono (fun _ _ h => h) fun _ _ h => h.2).bind ?_
        rintro found s' ⟨_, hagain⟩
        cases hfollow : loop.follow found with
        | inl value => trivial
        | inr complete =>
            obtain ⟨hbegins, hless⟩ := hagain (by rw [hfollow]; rfl)
            exact (ih s' hbegins (by omega)).bind fun _ _ _ => trivial
  steady limit := by
    induction limit with
    | zero =>
        intro limit' s _ hlimit
        omega
    | succ limit ih =>
        intro limit' s hs hlimit hlimit'
        obtain ⟨limit', rfl⟩ : ∃ n, limit' = n + 1 := ⟨limit' - 1, by omega⟩
        rw [loop.upTo_succ, loop.upTo_succ]
        cases hrun : loop.turn s with
        | error fault s' => rw [bind_error hrun, bind_error hrun]
        | ok found s' =>
            rw [bind_ok hrun, bind_ok hrun]
            cases hfollow : loop.follow found with
            | inl value => rfl
            | inr complete =>
                obtain ⟨hbegins, hless⟩ := ((hturn s hs).ok hrun).2 (by rw [hfollow]; rfl)
                have hrest := ih limit' s' hbegins (by omega) (by omega)
                simp only [bind, EStateM.bind, hrest]

end Loop.Consumes

/-! ## The loops of the parser -/

namespace Reader

/-- The loop that repeats a step until it gives nothing. -/
def repeating {α : Type} (step : Parser (Option α)) : Loop Reader (Option α) (List α) where
  turn := step
  follow
    | none => .inl []
    | some value => .inr (value :: ·)
  upTo := manyUpTo step
  upTo_succ limit s := by
    rw [manyUpTo]
    cases hstep : step s with
    | error fault s' => rw [bind_error hstep, bind_error hstep]
    | ok found s' =>
        rw [bind_ok hstep, bind_ok hstep]
        cases found <;> rfl

/-- One turn of reading on: a comment is put aside, or a token is kept ahead and returned. -/
def fillStep (mode : Mode) : Parser (Option Token) := do
  let (token, origin) ← readToken mode
  if token.kind.isComment then
    collect token
    return none
  else
    modify fun reader => { reader with lookahead := some ⟨token, mode, origin⟩ }
    return some token

theorem fillStep_eq (mode : Mode) (r : Reader) :
    fillStep mode r =
      match (r.cursor.skip mode).token mode with
      | .error error => .error (.malformed (.lexical error)) (r.standing (r.cursor.skip mode))
      | .ok token =>
        if token.kind.isComment then .ok none (r.past (r.cursor.skip mode) token)
        else .ok (some token) (r.facing mode (r.cursor.skip mode) token) := by
  rw [fillStep]
  cases htoken : (r.cursor.skip mode).token mode with
  | error error => rw [bind_error (readToken_of_error htoken)]
  | ok token =>
      rw [bind_ok (readToken_of_ok htoken)]
      by_cases hcomment : token.kind.isComment = true
      · simp only [hcomment, if_true]
        rfl
      · simp only [hcomment, Bool.false_eq_true, if_false]
        rfl

/-- The loop that passes over comments up to a token that is none. -/
def filling (mode : Mode) : Loop Reader (Option Token) Token where
  turn := fillStep mode
  follow
    | none => .inr id
    | some token => .inl token
  upTo := fillUpTo mode
  upTo_succ limit r := by
    have hstep := fillStep_eq mode r
    rw [fillUpTo_succ]
    cases htoken : (r.cursor.skip mode).token mode with
    | error error =>
        rw [htoken] at hstep
        rw [bind_error hstep]
    | ok token =>
        rw [htoken] at hstep
        by_cases hcomment : token.kind.isComment = true
        · simp only [hcomment, if_true] at hstep ⊢
          rw [bind_ok hstep]
          simp only [bind, EStateM.bind]
          cases fillUpTo mode limit (r.past (r.cursor.skip mode) token) <;> rfl
        · simp only [hcomment, Bool.false_eq_true, if_false] at hstep ⊢
          rw [bind_ok hstep]
          rfl

/-- A step that goes forward and passes something whenever it gives something makes a loop that
consumes. -/
theorem repeating_consumes {α : Type} {source : Text} {step : Parser (Option α)} {P : α → Prop}
    (hlooks : Looks step)
    (hspec : ∀ r : Reader, r.Sound → Ends step r
      (fun found r' => r.Keeps r' ∧ ∀ value, found = some value → r.Passes r' ∧ P value) Local) :
    (repeating step).Consumes (Arises source) id := by
  refine .of_turns (fun _ hr => hr) fun r hr => ?_
  have hgoes := hlooks.goes r
  cases hstep : step r with
  | error fault r' =>
      exact (ends_of_error hstep).mpr ⟨hgoes.error hstep, ((hspec r hr.stands.1).error hstep).1⟩
  | ok found r' =>
      refine (ends_of_ok hstep).mpr ⟨hgoes.ok hstep, fun hfollow => ?_⟩
      cases found with
      | none => cases hfollow
      | some value =>
          obtain ⟨hpasses, _⟩ := ((hspec r hr.stands.1).ok hstep).2 value rfl
          exact ⟨hr.goes (hgoes.ok hstep), hpasses.lt⟩

/-- Reading on consumes: each comment that is passed over has a character of its own. -/
theorem filling_consumes (source : Text) (mode : Mode) :
    (filling mode).Consumes (fun r => Arises source r ∧ r.lookahead = none) id := by
  refine .of_turns (fun _ h => h.1) ?_
  rintro r ⟨hr, hahead⟩
  have hstep : fillStep mode r = _ := fillStep_eq mode r
  cases htoken : (r.cursor.skip mode).token mode with
  | error error =>
      rw [htoken] at hstep
      exact (ends_of_error hstep).mpr ⟨.single (.fault hahead htoken), by simp⟩
  | ok token =>
      rw [htoken] at hstep
      by_cases hcomment : token.kind.isComment = true
      · simp only [hcomment, if_true] at hstep
        have hshift : Shift r (r.past (r.cursor.skip mode) token) := .comment hahead htoken hcomment
        refine (ends_of_ok hstep).mpr ⟨.single hshift, fun _ => ⟨⟨hr.goes (.single hshift), hahead⟩, ?_⟩⟩
        simp only [id, ahead, past, hahead]
        exact Cursor.length_rest_past_lt htoken hcomment
      · simp only [hcomment, Bool.false_eq_true, if_false] at hstep
        have hplain : token.kind.isComment = false := Bool.eq_false_iff.mpr hcomment
        refine (ends_of_ok hstep).mpr ⟨.single (.face hahead htoken hplain), fun hfollow => ?_⟩
        cases hfollow

end Reader

namespace Grammar

/-- The loop over the scopes. -/
def turning (config : Config) : Loop Session Bool Unit where
  turn := turn config
  follow again := if again then .inr id else .inl ()
  upTo := turnsUpTo config
  upTo_succ limit S := by
    rw [turnsUpTo]
    cases hturn : turn config S with
    | error fault T => rw [bind_error hturn, bind_error hturn]
    | ok again T =>
        rw [bind_ok hturn, bind_ok hturn]
        cases again with
        | false => rfl
        | true =>
            simp only [if_true, bind, EStateM.bind]
            cases turnsUpTo config limit T <;> rfl

theorem turning_consumes (config : Config) (source : Text) :
    (turning config).Consumes (fun S => Arises source S.reader) Session.reader := by
  refine .of_turns (fun _ hS => hS) fun S hS => ?_
  have hgoes : Ends (turn config) S (fun _ T => S.reader.Goes T.reader)
      fun _ T => S.reader.Goes T.reader := turn_goes hS.stands.1
  cases hturn : turn config S with
  | error fault T =>
      exact (ends_of_error hturn).mpr ⟨hgoes.error hturn, (turn_spec hS.stands.1).error hturn⟩
  | ok again T =>
      refine (ends_of_ok hturn).mpr ⟨hgoes.ok hturn, fun hfollow => ?_⟩
      cases again with
      | false => cases hfollow
      | true => exact ⟨hS.goes (hgoes.ok hturn), ((turn_spec hS.stands.1).ok hturn).2 rfl⟩

end Grammar

namespace Document

/-- Reading a source ends by consumption. -/
structure Consumption (config : Config) (source : Text) : Prop where
  /-- Nothing that happens to a reader moves its place back. -/
  forward : ∀ r r', Arises source r → Shift r r' → r.place ≤ r'.place
  /-- The reading consists of what happens to readers. -/
  goes : ∀ S, Arises source S.reader → ∀ limit, Ends (turnsUpTo config limit) S
    (fun _ T => S.reader.Goes T.reader) fun _ T => S.reader.Goes T.reader
  scopes : (turning config).Consumes (fun S => Arises source S.reader) Session.reader
  hops : (repeating hopStep).Consumes (Arises source) id
  fields : (repeating fieldStep).Consumes (Arises source) id
  words : (repeating wordStep).Consumes (Arises source) id
  constraints : (repeating constraintStep).Consumes (Arises source) id
  /-- The first constraint of a list is read without looking for the end of the list. -/
  firstConstraint : ∀ r, Arises source r → Ends (constraintName []) r
    (fun _ r' => r.Goes r' ∧ r.place < r'.place) fun fault r' => r.Goes r' ∧ fault ≠ .stalled
  comments : ∀ mode, (filling mode).Consumes (fun r => Arises source r ∧ r.lookahead = none) id
  ends : ofText config source ≠ .error .stalled

/-- The first constraint of a list is passed, or is missing. -/
theorem constraintName_consumes {source : Text} {r : Reader} (hr : Arises source r)
    (others : List Text) :
    Ends (constraintName others) r (fun _ r' => r.Goes r' ∧ r.place < r'.place)
      fun fault r' => r.Goes r' ∧ fault ≠ .stalled := by
  have hgoes := (constraintName_looks others).goes r
  have hspec := constraintName_spec hr.stands.1 others
  cases hname : constraintName others r with
  | error fault r' =>
      exact (ends_of_error hname).mpr ⟨hgoes.error hname, (hspec.error hname).1⟩
  | ok name r' =>
      have hr' := hr.goes (hgoes.ok hname)
      exact (ends_of_ok hname).mpr ⟨hgoes.ok hname, hr.place_lt hr' (hspec.ok hname).1.lt⟩

/-- Reading ends by consumption, whatever the source and the configuration.  Each turn over the scopes,
and each turn of the loops for the names of an expression, for fields, for the words between parentheses,
for constraints and for comments, leaves the loop, fails, or moves the place of the reader on.  The place
never moves back, and no loop runs out of turns. -/
theorem ofText_consumption (config : Config) (source : Text) : Consumption config source where
  forward _ _ hr hshift := (hshift.forward hr.stands.1 hr.stands.2).2
  goes _ hS limit := turnsUpTo_goes limit hS.stands.1
  scopes := turning_consumes config source
  hops := repeating_consumes hopStep_looks fun _ => hopStep_spec
  fields := repeating_consumes fieldStep_looks fun _ => fieldStep_spec
  words := repeating_consumes wordStep_looks fun _ => wordStep_spec
  constraints := repeating_consumes constraintStep_looks fun _ => constraintStep_spec
  firstConstraint _ hr := constraintName_consumes hr []
  comments := filling_consumes source
  ends h := structured_of_ofText h

end Document

end DiagramText
