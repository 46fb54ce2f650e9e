import DiagramText.Proofs.Grammar.Written

/-!
# Turns

A turn looks ahead, places the comments it passed, and then acts on the token
it sees (`turn_eq`).  Every turn but the last consumes something
(`turn_spec`), so how many turns are allowed does not matter as long as there
are more than characters: `turns` takes as many as it needs, and goes on from a
turn with the turns after it (`turns_of_true`).

A session is settled when it has looked ahead and its comments are placed.
Settling a session does not change what its turns come to (`turns_settle`).
-/

namespace DiagramText

open Grammar Reader

namespace Reader

/-- The reader after its comments were taken. -/
def emptied (r : Reader) : Reader :=
  { r with comments := [] }

@[simp] theorem text_emptied (r : Reader) : r.emptied.text = r.text := rfl

/-- A reader without comments is as if they were taken. -/
theorem emptied_eq {r : Reader} (h : r.comments = []) : r.emptied = r := by
  unfold emptied
  rw [← h]

/-- A reader stays sound when its comments are taken. -/
theorem Sound.emptied {r : Reader} (hr : r.Sound) : r.emptied.Sound where
  lookahead := hr.lookahead
  comments _ h := by cases h

/-- Taking the comments keeps what was kept before. -/
theorem Keeps.emptied {r r' : Reader} (h : r.Keeps r') : r.Keeps r'.emptied :=
  ⟨h.sound.emptied, h.le⟩

theorem takeComments_eq (r : Reader) : takeComments r = .ok r.comments r.emptied := rfl

end Reader

/-- What a comment token becomes is a comment. -/
theorem Item.isComment_commentItem (token : Token) : (commentItem token).isComment = true := by
  unfold commentItem
  split <;> rfl

/-- What a comment token becomes has its span. -/
theorem Grammar.span_commentItem (token : Token) : (Node.item (commentItem token)).span = token.span := by
  unfold commentItem
  split <;> rfl

namespace Grammar

namespace Scopes

@[simp] theorem add_nil (scopes : Scopes) : scopes.add [] = scopes := by
  obtain ⟨top, blocks⟩ := scopes
  cases blocks <;> simp [add]

/-- Adding one list of items after the other adds both. -/
theorem add_add (scopes : Scopes) (a b : List Item) :
    (scopes.add a).add b = scopes.add (a ++ b) := by
  obtain ⟨top, blocks⟩ := scopes
  cases blocks <;> simp [add]

/-- Adding items leaves the open blocks open. -/
@[simp] theorem braces_add (scopes : Scopes) (items : List Item) :
    (scopes.add items).blocks.map (·.brace) = scopes.blocks.map (·.brace) := by
  obtain ⟨top, blocks⟩ := scopes
  cases blocks <;> simp [add]

/-- Adding items leaves as many blocks open. -/
theorem length_blocks_add (scopes : Scopes) (items : List Item) :
    (scopes.add items).blocks.length = scopes.blocks.length := by
  have hbraces := congrArg List.length (braces_add scopes items)
  rwa [List.length_map, List.length_map] at hbraces

/-- Closing a block that was just opened and filled adds it to the scope around it. -/
theorem pop_add_push (scopes : Scopes) (block : OpenBlock) (items : List Item) (closing : Span) :
    ((scopes.push block).add items).pop closing =
      scopes.add [block.item ⟨true, block.brace.span.cover closing⟩ items] := by
  simp [push, add, pop, OpenBlock.item]

end Scopes

@[simp] theorem commentItems_nil (config : Config) : commentItems config [] = [] := by
  simp [commentItems]

/-- Every comment that is placed comes from a token. -/
theorem mem_commentItems {config : Config} {comments : List Token} {item : Item}
    (h : item ∈ commentItems config comments) : ∃ comment ∈ comments, item = commentItem comment := by
  unfold commentItems at h
  split at h
  · obtain ⟨comment, hcomment, rfl⟩ := List.mem_map.mp h
    exact ⟨comment, hcomment, rfl⟩
  · cases h

variable {config : Config} {S S' : Session}

/-- A parser in a builder acts on the reader alone. -/
@[simp] theorem ends_parsing {α : Type} {p : Parser α} {post : α → Session → Prop}
    {fail : Fault → Session → Prop} :
    Ends (parsing p) S post fail ↔
      Ends p S.reader (fun a r => post a ⟨r, S.scopes⟩) (fun e r => fail e ⟨r, S.scopes⟩) := by
  unfold Ends parsing
  cases p S.reader <;> rfl

/-- A change of the scopes leaves the reader. -/
@[simp] theorem ends_scoping {change : Scopes → Scopes} {post : Unit → Session → Prop}
    {fail : Fault → Session → Prop} :
    Ends (scoping change) S post fail ↔ post () ⟨S.reader, change S.scopes⟩ := Iff.rfl

/-- Where a parser succeeds so does the builder, with the scopes as they were. -/
theorem parsing_ok {α : Type} {p : Parser α} {a : α} {r : Reader} (h : p S.reader = .ok a r) :
    parsing p S = .ok a ⟨r, S.scopes⟩ := by
  simp [parsing, h]

/-- Where a parser fails so does the builder, with the scopes as they were. -/
theorem parsing_error {α : Type} {p : Parser α} {e : Fault} {r : Reader}
    (h : p S.reader = .error e r) : parsing p S = .error e ⟨r, S.scopes⟩ := by
  simp [parsing, h]

/-- What a turn does about the token it sees. -/
def act (config : Config) (token : Token) : Builder Bool := do
  let blocks := (← get).scopes.blocks
  if token.kind = .terminator then
    let _ ← parsing (Reader.advance .declaration)
    return true
  else if token.kind = .eof then
    match blocks with
    | [] => return false
    | block :: _ => reject (.unclosedBlock block.brace.span)
  else if token.isPunct '\x7d' then
    if blocks.isEmpty then
      reject (.unexpected "declaration".toList ["import".toList] token)
    closeBlock
    return true
  else
    match ← parsing statement with
    | .item item => scoping (·.add [item])
    | .opening target label brace => openBlock config ⟨brace, target, label, []⟩
    return true

/-- A turn looks ahead, places the comments and acts on the token it sees. -/
theorem turn_eq (config : Config) :
    turn config =
      (parsing (Reader.peek .declaration) >>= fun token =>
        placeComments config >>= fun _ => act config token) :=
  rfl

/-- The session after it looked ahead and placed its comments. -/
def settled (config : Config) (r : Reader) (scopes : Scopes) : Session :=
  ⟨r.emptied, scopes.add (commentItems config r.comments)⟩

/-- Whether the session has looked ahead to this token and placed all comments. -/
structure Settled (S : Session) (token : Token) : Prop where
  sound : S.reader.Sound
  shows : S.reader.Shows .declaration token
  comments : S.reader.comments = []

/-- A session that has looked ahead and placed its comments is settled. -/
theorem settled_of_sees {r r' : Reader} {scopes : Scopes} {token : Token}
    (h : Sees .declaration r token r') : Settled (settled config r' scopes) token :=
  ⟨h.sound.emptied, h.shows, rfl⟩

/-- After looking ahead a turn acts on the token in the settled session. -/
theorem turn_of_peek {token : Token} {r : Reader}
    (h : peek .declaration S.reader = .ok token r) :
    turn config S = act config token (settled config r S.scopes) := by
  rw [turn_eq, bind_ok (parsing_ok h)]
  rfl

/-- A turn in a settled session acts on the token ahead. -/
theorem Settled.turn_eq {token : Token} (hS : Settled S token) :
    turn config S = act config token S := by
  rw [turn_of_peek hS.shows.peek_eq, settled, hS.comments, emptied_eq hS.comments,
    commentItems_nil, Scopes.add_nil]

/-- A turn that sees no token fails. -/
theorem turn_of_peek_error {fault : Fault} {r : Reader}
    (h : peek .declaration S.reader = .error fault r) :
    turn config S = .error fault ⟨r, S.scopes⟩ := by
  rw [turn_eq, bind_error (parsing_error h)]

/-- A settled session takes the same turn as the one it was settled from. -/
theorem turn_settled {token : Token} {r : Reader} (hS : S.reader.Sound)
    (h : peek .declaration S.reader = .ok token r) :
    turn config (settled config r S.scopes) = turn config S := by
  have hsees := (peek_spec hS .declaration).ok h
  rw [turn_of_peek h, (settled_of_sees hsees).turn_eq]

/-! ## What a turn does -/

/-- A turn consumes a terminator and is followed by another. -/
theorem act_terminator {token : Token} (hS : Settled S token) (hkind : token.kind = .terminator) :
    act config token S = .ok true ⟨S.reader.consumed, S.scopes⟩ := by
  have hadvance := hS.shows.advance_eq (by simp [hkind])
  simp only [act, if_pos hkind]
  rw [get_bind, bind_ok (parsing_ok hadvance)]
  rfl

/-- A turn at the end of the source is the last, unless a block is open. -/
theorem act_eof {token : Token} (hkind : token.kind = .eof) :
    act config token S =
      match S.scopes.blocks with
      | [] => .ok false S
      | block :: _ => .error (.malformed (.unclosedBlock block.brace.span)) S := by
  have hterminator : token.kind ≠ .terminator := by simp [hkind]
  simp only [act, if_neg hterminator, if_pos hkind]
  rw [get_bind]
  cases S.scopes.blocks <;> rfl

/-- A turn at a closing brace closes the innermost block, if there is one. -/
theorem act_brace {token : Token} (hbrace : token.isPunct '\x7d' = true) :
    act config token S =
      match S.scopes.blocks with
      | [] => .error (.malformed (.unexpected "declaration".toList ["import".toList] token)) S
      | _ :: _ => (closeBlock >>= fun _ => pure true) S := by
  have hkind := Token.kind_of_isPunctOf hbrace
  have hterminator : token.kind ≠ .terminator := by simp [hkind]
  have heof : token.kind ≠ .eof := by simp [hkind]
  simp only [act, if_neg hterminator, if_neg heof, if_pos hbrace]
  rw [get_bind]
  cases S.scopes.blocks <;> rfl

/-- Puts what a statement read into the scopes. -/
def place (config : Config) : Statement → Builder Bool
  | .item read => scoping (·.add [read]) >>= fun _ => pure true
  | .opening target label brace =>
    openBlock config ⟨brace, target, label, []⟩ >>= fun _ => pure true

/-- A turn at any other token reads a statement and places it. -/
theorem act_statement {token : Token} (hterminator : token.kind ≠ .terminator)
    (heof : token.kind ≠ .eof) (hbrace : ¬ token.isPunct '\x7d' = true) :
    act config token S = (parsing statement >>= place config) S := by
  simp only [act, if_neg hterminator, if_neg heof, if_neg hbrace]
  rfl

/-- A statement that is read hands over no comment and no whole block. -/
theorem parsing_statement_leaf {read : Statement} {T : Session}
    (h : parsing statement S = .ok read T) : read.IsLeaf := by
  cases hread : statement S.reader with
  | ok found r =>
      cases (parsing_ok hread).symm.trans h
      exact (statement_leaf S.reader).ok hread
  | error fault r => cases (parsing_error hread).symm.trans h

/-- A block is opened unless it would be one too many in another. -/
theorem openBlock_eq (config : Config) (block : OpenBlock) (S : Session) :
    openBlock config block S =
      if config.maxDepth < S.scopes.blocks.length + 1 then
        .error (.malformed (.tooDeep config.maxDepth block.brace.span)) S
      else .ok () ⟨S.reader, S.scopes.push block⟩ := by
  unfold openBlock
  rw [get_bind]
  split <;> rfl

/-- Closing a block is consuming its brace and what may follow it. -/
theorem closeBlock_of_advance {closing : Token} {r : Reader}
    (h : advance .declaration S.reader = .ok closing r) :
    closeBlock S = parsing finishBlock ⟨r, S.scopes.pop closing.span⟩ := by
  unfold closeBlock
  rw [bind_ok (parsing_ok h)]
  rfl

/-- A turn at the token ahead can fail so: no repetition consumes nothing, and a block is without
its closing brace only at the end of the source. -/
def Halts (token : Token) (fault : Fault) (_ : Session) : Prop :=
  fault ≠ .stalled ∧ (token.kind ≠ .eof → ∀ brace, fault ≠ .malformed (.unclosedBlock brace))

/-- A fault that is local is one of those with which a turn may fail. -/
theorem halts_of_local {token : Token} {fault : Fault} {r : Reader} (h : Local fault r) :
    Halts token fault S :=
  ⟨h.1, fun _ => h.2.1⟩

/-- A turn in a settled session consumes something and is followed by another, or it is the last,
at the end of the source. -/
theorem act_spec (config : Config) {token : Token} (hS : Settled S token) :
    Ends (act config token) S
      (fun again S' => S'.reader.Sound ∧ (again = true → S'.reader.ahead < S.reader.ahead) ∧
        (token.kind ≠ .eof → again = true)) (Halts token) := by
  by_cases hterminator : token.kind = .terminator
  · refine (ends_of_ok (act_terminator hS hterminator)).mpr ⟨hS.sound.consumed, fun _ => ?_, ?_⟩
    · exact hS.shows.ahead_consumed hS.sound (by simp [hterminator])
    · exact fun _ => rfl
  by_cases heof : token.kind = .eof
  · have hact : act config token S = _ := act_eof heof
    split at hact
    · exact (ends_of_ok hact).mpr ⟨hS.sound, by simp, fun h => absurd heof h⟩
    · exact (ends_of_error hact).mpr ⟨by simp, fun h => absurd heof h⟩
  by_cases hbrace : token.isPunct '\x7d' = true
  · have hact : act config token S = _ := act_brace hbrace
    split at hact
    · exact (ends_of_error hact).mpr (by simp [Halts])
    · have hpasses := hS.shows.passes hS.sound heof
      refine (ends_congr hact).mpr ?_
      simp only [closeBlock, ends_bind, ends_parsing, ends_scoping, ends_pure]
      refine (ends_of_ok (hS.shows.advance_eq heof)).mpr ?_
      refine (finishBlock_spec hpasses.sound).mono (fun _ r' h => ?_) fun _ _ => halts_of_local
      exact ⟨h.sound, fun _ => (hpasses.trans h).lt, by simp⟩
  · refine (ends_congr (act_statement hterminator heof hbrace)).mpr ?_
    simp only [ends_bind, ends_parsing]
    refine (statement_spec hS.sound).mono ?_ fun _ _ => halts_of_local
    rintro read r' ⟨hpasses, _⟩
    cases read with
    | item item => exact ⟨hpasses.sound, fun _ => hpasses.lt, fun _ => rfl⟩
    | opening target label brace =>
        have hopen := openBlock_eq config ⟨brace, target, label, []⟩ ⟨r', S.scopes⟩
        refine ends_bind.mpr ?_
        split at hopen
        · exact (ends_of_error hopen).mpr (by simp [Halts])
        · exact (ends_of_ok hopen).mpr ⟨hpasses.sound, fun _ => hpasses.lt, fun _ => rfl⟩

/-- Every turn but the last consumes something. -/
theorem turn_spec (hS : S.reader.Sound) :
    Ends (turn config) S
      (fun again S' => S'.reader.Sound ∧
        (again = true → S'.reader.ahead < S.reader.ahead))
      (fun fault _ => fault ≠ .stalled) := by
  cases hpeek : peek .declaration S.reader with
  | error fault r =>
      exact (ends_of_error (turn_of_peek_error hpeek)).mpr
        ((peek_spec hS .declaration).error hpeek).1.1
  | ok token r =>
      have hsees := (peek_spec hS .declaration).ok hpeek
      refine (ends_congr (turn_of_peek hpeek)).mpr
        ((act_spec config (settled_of_sees hsees)).mono ?_ fun _ _ h => h.1)
      rintro again S' ⟨hsound, hless, _⟩
      exact ⟨hsound, fun hagain => Nat.lt_of_lt_of_le (hless hagain) hsees.ahead_le⟩

/-! ## All turns -/

/-- Turns until none follows. -/
def turns (config : Config) : Builder Unit := fun S =>
  turnsUpTo config (S.reader.ahead + 1) S

/-- How many turns are allowed does not matter, as long as there are more than characters. -/
theorem turnsUpTo_eq_of_lt {n m : Nat} (hS : S.reader.Sound) (hn : S.reader.ahead < n)
    (hm : S.reader.ahead < m) : turnsUpTo config n S = turnsUpTo config m S := by
  induction n generalizing m S with
  | zero => omega
  | succ n ih =>
      cases m with
      | zero => omega
      | succ m =>
          unfold turnsUpTo
          cases hturn : turn config S with
          | error fault S' => rw [bind_error hturn, bind_error hturn]
          | ok again S' =>
              obtain ⟨hsound, hless⟩ := (turn_spec hS).ok hturn
              rw [bind_ok hturn, bind_ok hturn]
              cases again with
              | false => rfl
              | true =>
                  have := hless rfl
                  exact ih hsound (by omega) (by omega)

/-- A turn that is followed by another goes on with the turns after it. -/
theorem turns_of_true (hS : S.reader.Sound) (h : turn config S = .ok true S') :
    turns config S = turns config S' := by
  obtain ⟨hsound, hless⟩ := (turn_spec hS).ok h
  have := hless rfl
  unfold turns
  rw [turnsUpTo, bind_ok h]
  exact turnsUpTo_eq_of_lt hsound this (Nat.lt_succ_self _)

/-- A turn that is not followed by another is the last of the turns. -/
theorem turns_of_false (h : turn config S = .ok false S') : turns config S = .ok () S' := by
  unfold turns
  rw [turnsUpTo, bind_ok h]
  rfl

/-- A turn that fails is the last of the turns. -/
theorem turns_of_error {fault : Fault} (h : turn config S = .error fault S') :
    turns config S = .error fault S' := by
  unfold turns
  rw [turnsUpTo, bind_error h]

/-- Sessions that take the same turn take the same turns. -/
theorem turns_congr (hS : S.reader.Sound) (hS' : S'.reader.Sound)
    (h : turn config S = turn config S') : turns config S = turns config S' := by
  cases hturn : turn config S with
  | error fault T => rw [turns_of_error hturn, turns_of_error (h ▸ hturn)]
  | ok again T =>
      cases again with
      | false => rw [turns_of_false hturn, turns_of_false (h ▸ hturn)]
      | true => rw [turns_of_true hS hturn, turns_of_true hS' (h ▸ hturn)]

/-- Looking ahead and placing comments does not change what the turns come to. -/
theorem turns_settled {token : Token} {r : Reader} (hS : S.reader.Sound)
    (h : peek .declaration S.reader = .ok token r) :
    turns config S = turns config (settled config r S.scopes) :=
  turns_congr hS ((peek_spec hS .declaration).ok h).sound.emptied (turn_settled hS h).symm

/-- Reading a source is taking turns from its front. -/
theorem run_eq_turns (config : Config) (source : Text) :
    run config source = turns config ⟨.ofText source, .empty⟩ := rfl

end Grammar

/-- Where a source is read the turns end well, and the document has the items at the top. -/
theorem Document.exists_read {config : Config} {source : Text} {document : Document}
    (h : ofText config source = .ok document) :
    ∃ T, turns config ⟨.ofText source, .empty⟩ = .ok () T ∧ document = ofItems source T.scopes.top := by
  unfold ofText at h
  rw [run_eq_turns] at h
  cases hturns : turns config ⟨.ofText source, .empty⟩ with
  | ok value T =>
      rw [hturns] at h
      exact ⟨T, rfl, (Except.ok.inj h).symm⟩
  | error fault T =>
      rw [hturns] at h
      cases fault <;> cases h

/-- Where a source cannot be read the turns fail, and the failure shows how. -/
theorem Document.cases_of_ofText_error {config : Config} {source : Text} {failure : Failure}
    (h : ofText config source = .error failure) :
    (∃ error T, turns config ⟨.ofText source, .empty⟩ = .error (.malformed error) T ∧
        failure = .malformed error (ofSession config source T)) ∨
      (∃ digits T, turns config ⟨.ofText source, .empty⟩ = .error (.numeralTooLong digits) T ∧
        failure = .numeralTooLong digits) ∨
      ∃ T, turns config ⟨.ofText source, .empty⟩ = .error .stalled T ∧ failure = .stalled := by
  unfold ofText at h
  rw [run_eq_turns] at h
  cases hturns : turns config ⟨.ofText source, .empty⟩ with
  | ok value T =>
      rw [hturns] at h
      cases h
  | error fault T =>
      rw [hturns] at h
      cases fault with
      | malformed error => exact .inl ⟨error, T, rfl, (Except.error.inj h).symm⟩
      | numeralTooLong digits => exact .inr (.inl ⟨digits, T, rfl, (Except.error.inj h).symm⟩)
      | stalled => exact .inr (.inr ⟨T, rfl, (Except.error.inj h).symm⟩)

/-- A source that is malformed fails in a session that shows what was completed. -/
theorem Document.exists_failed {config : Config} {source : Text} {error : SyntaxError}
    {completed : Document} (h : ofText config source = .error (.malformed error completed)) :
    ∃ T, turns config ⟨.ofText source, .empty⟩ = .error (.malformed error) T ∧
      completed = ofSession config source T := by
  obtain ⟨_, T, hturns, hfailure⟩ | ⟨_, _, _, hfailure⟩ | ⟨_, _, hfailure⟩ := cases_of_ofText_error h
  · obtain ⟨rfl, rfl⟩ := Failure.malformed.inj hfailure
    exact ⟨T, hturns, rfl⟩
  · cases hfailure
  · cases hfailure

end DiagramText
