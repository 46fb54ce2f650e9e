import DiagramText.Proofs.Grammar.Turns

/-!
# Reading blocks by recursion

A source can also be read by recursive descent: the items of a block are read
by a call of their own, which ends at the closing brace and hands the finished
block to the declaration that opened it.  `Document.ofTextNested` reads so.
It uses the same statements, the same reader and the same limit on nesting, and
has no scopes.

Taking turns gives the same document and the same errors
(`Document.ofText_eq_ofTextNested`).  What makes the two agree is that the items
read by one call are what the turns add to the innermost scope, whatever blocks
are open around it (`turns_itemsUpTo`).
-/

namespace DiagramText

open Grammar Reader

namespace Grammar

/-- The item of a statement.  Where a block begins its items are read by `items`, which is told
the braces of all blocks that are open then. -/
def itemFrom (config : Config) (items : List Token → Parser (List Item)) (braces : List Token) :
    Statement → Parser Item
  | .item item => return item
  | .opening target label brace => do
    if config.maxDepth < braces.length + 1 then fail (.tooDeep config.maxDepth brace.span)
    let children ← items (brace :: braces)
    let closing ← advance .declaration
    finishBlock
    let mark := ⟨true, brace.span.cover closing.span⟩
    return .container ⟨target, true, label, none, target.span.cover mark.span⟩ mark children

/-- The items from the token ahead on.  They end at the end of the source, or inside blocks at a
closing brace, which stays ahead. -/
def itemsAt (config : Config) (items : List Token → Parser (List Item)) (braces : List Token)
    (token : Token) : Parser (List Item) := do
  if token.kind = .terminator then
    let _ ← advance .declaration
    items braces
  else if token.kind = .eof then
    match braces with
    | [] => return []
    | brace :: _ => fail (.unclosedBlock brace.span)
  else if token.isPunct '\x7d' then
    if braces.isEmpty then fail (.unexpected "declaration".toList ["import".toList] token)
    return []
  else
    let item ← itemFrom config items braces (← statement)
    return item :: (← items braces)

/-- The items ahead inside blocks with these opening braces, the innermost first, read by at most
`limit` calls one in another. -/
def itemsUpTo (config : Config) : (limit : Nat) → (braces : List Token) → Parser (List Item)
  | 0, _ => throw .stalled
  | limit + 1, braces => do
    let token ← peek .declaration
    let comments ← takeComments
    let items ← itemsAt config (itemsUpTo config limit) braces token
    return commentItems config comments ++ items

end Grammar

/-- What stopped the reading. -/
def Failure.fault : Failure → Fault
  | .malformed error _ => .malformed error
  | .numeralTooLong digits => .numeralTooLong digits
  | .stalled => .stalled

/-- Reads a source by recursive descent. -/
def Document.ofTextNested (config : Config) (source : Text) : Except Fault Document :=
  match itemsUpTo config (source.length + 1) [] (.ofText source) with
  | .ok items _ => .ok (.ofItems source items)
  | .error fault _ => .error fault

namespace Grammar

variable {config : Config}

/-- Whether the items of the innermost block end here: at the end of the source outside of all
blocks, at a closing brace inside one. -/
structure Stops (S : Session) : Prop where
  settled : ∃ token, Settled S token ∧
    match S.scopes.blocks with
    | [] => token.kind = .eof
    | _ :: _ => token.isPunct '\x7d' = true

/-- What the turns from the one session come to, those from the other come to. -/
structure Leads (config : Config) (S S' : Session) : Prop where
  keeps : S.reader.Keeps S'.reader
  turns_eq : turns config S = turns config S'

theorem Leads.trans {S S' S'' : Session} (h : Leads config S S') (h' : Leads config S' S'') :
    Leads config S S'' :=
  ⟨h.keeps.trans h'.keeps, h.turns_eq.trans h'.turns_eq⟩

/-- The turns from the session fail with this fault. -/
def Fails (config : Config) (S : Session) (fault : Fault) (_ : Reader) : Prop :=
  fault ≠ .stalled ∧ ∃ T, turns config S = .error fault T

theorem Leads.fails {S S' : Session} {fault : Fault} {r : Reader} (h : Leads config S S')
    (hfails : Fails config S' fault r) : Fails config S fault r := by
  obtain ⟨hstall, T, hT⟩ := hfails
  exact ⟨hstall, T, h.turns_eq.trans hT⟩

/-- The calls of `items` do what the turns do, from any session with less than `limit` characters
ahead: they read what the turns add to the innermost scope, and fail as the turns fail. -/
def Follows (config : Config) (limit : Nat) (items : List Token → Parser (List Item)) : Prop :=
  ∀ S : Session, S.reader.Sound → S.reader.ahead < limit →
    Ends (items (S.scopes.blocks.map (·.brace))) S.reader
      (fun found r' => Leads config S ⟨r', S.scopes.add found⟩ ∧ Stops ⟨r', S.scopes.add found⟩)
      (Fails config S)

theorem leads_of_turn {S S' : Session} (hS : S.reader.Sound) (h : turn config S = .ok true S') :
    Leads config S S' := by
  obtain ⟨hsound, hless⟩ := (turn_spec hS).ok h
  exact ⟨⟨hsound, Nat.le_of_lt (hless rfl)⟩, turns_of_true hS h⟩

theorem fails_of_turn {S S' : Session} {fault : Fault} {r : Reader} (hS : S.reader.Sound)
    (h : turn config S = .error fault S') : Fails config S fault r :=
  ⟨(turn_spec hS).error h, S', turns_of_error h⟩

/-- Consuming the closing brace of the innermost block is a turn that closes it. -/
theorem closing_follows {r : Reader} {scopes : Scopes} {block : OpenBlock} {items : List Item}
    (hstops : Stops ⟨r, (scopes.push block).add items⟩) :
    Ends (advance .declaration) r
      (fun closing r' => Ends finishBlock r'
        (fun _ r'' => Leads config ⟨r, (scopes.push block).add items⟩
          ⟨r'', scopes.add [block.item ⟨true, block.brace.span.cover closing.span⟩ items]⟩)
        (Fails config ⟨r, (scopes.push block).add items⟩))
      (Fails config ⟨r, (scopes.push block).add items⟩) := by
  obtain ⟨token, hsettled, hbrace⟩ := hstops.settled
  have hbrace : token.isPunct '\x7d' = true := hbrace
  have hadvance := hsettled.shows.advance_eq (Token.kind_ne_eof_of_isPunct hbrace)
  have hturn : turn config _ = (closeBlock >>= fun _ => pure true) _ :=
    hsettled.turn_eq.trans (act_brace hbrace)
  have hclose : closeBlock ⟨r, (scopes.push block).add items⟩ = _ := closeBlock_of_advance hadvance
  rw [Scopes.pop_add_push] at hclose
  refine (ends_of_ok hadvance).mpr ?_
  cases hfinish : finishBlock r.consumed with
  | ok value r' =>
      rw [bind_ok (hclose.trans (parsing_ok hfinish))] at hturn
      exact (ends_of_ok hfinish).mpr (leads_of_turn hsettled.sound hturn)
  | error fault r' =>
      rw [bind_error (hclose.trans (parsing_error hfinish))] at hturn
      exact (ends_of_error hfinish).mpr (fails_of_turn hsettled.sound hturn)

/-- The turn at a statement adds the item that the call reads, its block included. -/
theorem itemFrom_follows {limit : Nat} {items : List Token → Parser (List Item)}
    (hitems : Follows config limit items) {S : Session} {token : Token} (hS : Settled S token)
    (hterminator : token.kind ≠ .terminator) (heof : token.kind ≠ .eof)
    (hbrace : ¬ token.isPunct '\x7d' = true) (hlimit : S.reader.ahead ≤ limit)
    {read : Statement} {r : Reader} (hread : statement S.reader = .ok read r) :
    Ends (itemFrom config items (S.scopes.blocks.map (·.brace)) read) r
      (fun item r' => Leads config S ⟨r', S.scopes.add [item]⟩ ∧ r'.ahead < S.reader.ahead)
      (Fails config S) := by
  have hpasses := ((statement_spec hS.sound).ok hread).1
  have hturn : turn config S = _ := hS.turn_eq.trans (act_statement hterminator heof hbrace)
  rw [bind_ok (parsing_ok hread)] at hturn
  cases read with
  | item item => exact ⟨leads_of_turn hS.sound hturn, hpasses.lt⟩
  | opening target label brace =>
      have hopen := openBlock_eq config ⟨brace, target, label, []⟩ ⟨r, S.scopes⟩
      unfold itemFrom
      simp only [List.length_map]
      refine ends_guard (fun hdeep => ?_) fun hdeep => ?_
      · rw [if_pos hdeep] at hopen
        exact fails_of_turn hS.sound (hturn.trans (bind_error hopen))
      · rw [if_neg hdeep] at hopen
        have hleads := leads_of_turn hS.sound (hturn.trans (bind_ok hopen))
        refine ends_bind.mpr ((hitems _ hpasses.sound (Nat.lt_of_lt_of_le hpasses.lt hlimit)).mono
          ?_ fun _ _ h => hleads.fails h)
        rintro children r₁ ⟨hchildren, hstops⟩
        have hall := hleads.trans hchildren
        refine ends_bind.mpr ((closing_follows hstops).mono ?_ fun _ _ h => hall.fails h)
        intro closing r₂ hclosing
        refine ends_bind.mpr (hclosing.mono ?_ fun _ _ h => hall.fails h)
        intro _ r₃ hfinished
        refine ⟨hall.trans hfinished, ?_⟩
        exact Nat.lt_of_le_of_lt (hchildren.trans hfinished).keeps.le hpasses.lt

/-- The turn at a statement reads the statement, and adds the item that it begins. -/
theorem statement_follows {limit : Nat} {items : List Token → Parser (List Item)}
    (hitems : Follows config limit items) {S : Session} {token : Token} (hS : Settled S token)
    (hterminator : token.kind ≠ .terminator) (heof : token.kind ≠ .eof)
    (hbrace : ¬ token.isPunct '\x7d' = true) (hlimit : S.reader.ahead ≤ limit) :
    Ends statement S.reader
      (fun read r => Ends (itemFrom config items (S.scopes.blocks.map (·.brace)) read) r
        (fun item r' => Leads config S ⟨r', S.scopes.add [item]⟩ ∧ r'.ahead < S.reader.ahead)
        (Fails config S))
      (Fails config S) := by
  cases hread : statement S.reader with
  | error fault r =>
      have hturn : turn config S = _ := hS.turn_eq.trans (act_statement hterminator heof hbrace)
      rw [bind_error (parsing_error hread)] at hturn
      exact (ends_of_error hread).mpr (fails_of_turn hS.sound hturn)
  | ok read r =>
      exact (ends_of_ok hread).mpr (itemFrom_follows hitems hS hterminator heof hbrace hlimit hread)

/-- From a settled session on the call reads what the turns add. -/
theorem itemsAt_follows {limit : Nat} {items : List Token → Parser (List Item)}
    (hitems : Follows config limit items) {S : Session} {token : Token} (hS : Settled S token)
    (hlimit : S.reader.ahead ≤ limit) :
    Ends (itemsAt config items (S.scopes.blocks.map (·.brace)) token) S.reader
      (fun found r' => Leads config S ⟨r', S.scopes.add found⟩ ∧ Stops ⟨r', S.scopes.add found⟩)
      (Fails config S) := by
  have hstay : Leads config S ⟨S.reader, S.scopes.add []⟩ := by
    rw [Scopes.add_nil]
    exact ⟨.refl hS.sound, rfl⟩
  have hturn : turn config S = _ := hS.turn_eq
  unfold itemsAt
  refine ends_ite.mpr ⟨fun hterminator => ?_, fun hterminator => ends_ite.mpr
    ⟨fun heof => ?_, fun heof => ends_ite.mpr ⟨fun hbrace => ?_, fun hbrace => ?_⟩⟩⟩
  · have hkind : token.kind ≠ .eof := by simp [hterminator]
    have hpasses := hS.shows.passes hS.sound hkind
    have hleads := leads_of_turn hS.sound (hturn.trans (act_terminator hS hterminator))
    refine ends_bind.mpr (hS.shows.advance_spec hkind ?_)
    refine (hitems ⟨S.reader.consumed, S.scopes⟩ hpasses.sound
      (Nat.lt_of_lt_of_le hpasses.lt hlimit)).mono ?_ fun _ _ h => hleads.fails h
    rintro found r' ⟨hfound, hstops⟩
    exact ⟨hleads.trans hfound, hstops⟩
  · have hact : act config token S = _ := act_eof heof
    cases hblocks : S.scopes.blocks with
    | nil =>
        refine ⟨hstay, ⟨token, ?_, ?_⟩⟩
        · rwa [Scopes.add_nil]
        · rw [Scopes.add_nil, hblocks]
          exact heof
    | cons block outer =>
        rw [hblocks] at hact
        exact fails_of_turn (r := S.reader) hS.sound (hturn.trans hact)
  · have hact : act config token S = _ := act_brace hbrace
    cases hblocks : S.scopes.blocks with
    | nil =>
        rw [hblocks] at hact
        exact fails_of_turn (r := S.reader) hS.sound (hturn.trans hact)
    | cons block outer =>
        refine ⟨hstay, ⟨token, ?_, ?_⟩⟩
        · rwa [Scopes.add_nil]
        · rw [Scopes.add_nil, hblocks]
          exact hbrace
  · apply (statement_follows hitems hS hterminator heof hbrace hlimit).bind
    intro read r hread
    apply hread.bind
    rintro item r₁ ⟨hitem, hless⟩
    have hlater := hitems ⟨r₁, S.scopes.add [item]⟩ hitem.keeps.sound
      (Nat.lt_of_lt_of_le hless hlimit)
    rw [Scopes.braces_add] at hlater
    refine ends_bind.mpr (hlater.mono ?_ fun _ _ h => hitem.fails h)
    rintro found r₂ ⟨hfound, hstops⟩
    rw [Scopes.add_add] at hfound hstops
    exact ⟨hitem.trans hfound, hstops⟩

/-- The items that a call reads are what the turns add to the innermost scope, whatever the scopes
around it hold.  The induction is on the limit: the calls for the rest of the items and for the
items of a block that is opened both have one call less to make. -/
theorem itemsUpTo_follows (config : Config) (limit : Nat) : Follows config limit (itemsUpTo config limit) := by
  induction limit with
  | zero =>
      intro S _ hlimit
      omega
  | succ limit ih =>
      intro S hS hlimit
      unfold itemsUpTo
      cases hpeek : peek .declaration S.reader with
      | error fault r =>
          exact ends_bind.mpr ((ends_of_error hpeek).mpr
            (fails_of_turn hS (turn_of_peek_error hpeek)))
      | ok token r =>
          have hsees := (peek_spec hS .declaration).ok hpeek
          have hleads : Leads config S (settled config r S.scopes) :=
            ⟨hsees.keeps.emptied, turns_settled hS hpeek⟩
          refine ends_bind.mpr ((ends_of_ok hpeek).mpr ?_)
          refine ends_bind.mpr ((ends_of_ok (takeComments_eq r)).mpr ?_)
          have hsettled : Settled (settled config r S.scopes) token := settled_of_sees hsees
          have hrest := itemsAt_follows ih hsettled
            (Nat.le_of_lt_succ (Nat.lt_of_le_of_lt hsees.ahead_le hlimit))
          simp only [settled, Scopes.braces_add, Scopes.add_add] at hrest
          refine ends_bind.mpr (hrest.mono ?_ fun _ _ h => hleads.fails h)
          rintro found r' ⟨hfound, hstops⟩
          exact ⟨hleads.trans hfound, hstops⟩

/-- Where no block is open and nothing is ahead the turns are over. -/
theorem turns_of_stops {S : Session} (hS : Stops S) (hblocks : S.scopes.blocks = []) :
    turns config S = .ok () S := by
  obtain ⟨token, hsettled, heof⟩ := hS.settled
  rw [hblocks] at heof
  have hact : act config token S = _ := act_eof heof
  rw [hblocks] at hact
  exact turns_of_false (hsettled.turn_eq.trans hact)

end Grammar

namespace Document

/-- Reading a source turn by turn, with the open blocks on a stack, and reading it by recursive
descent come to the same: the same document with its spans, or the same fault.  Neither gives up
on a source. -/
theorem ofText_eq_ofTextNested (config : Config) (source : Text) :
    (ofText config source).mapError Failure.fault = ofTextNested config source ∧
      ofTextNested config source ≠ .error .stalled := by
  have hfollows := itemsUpTo_follows config (source.length + 1)
    ⟨.ofText source, .empty⟩ (sound_ofText source) (Nat.lt_succ_self _)
  change Ends (itemsUpTo config (source.length + 1) []) (.ofText source) _ _ at hfollows
  unfold ofText ofTextNested
  rw [run_eq_turns]
  cases hitems : itemsUpTo config (source.length + 1) [] (.ofText source) with
  | ok items r =>
      obtain ⟨hleads, hstops⟩ := hfollows.ok hitems
      rw [hleads.turns_eq, turns_of_stops hstops rfl]
      exact ⟨rfl, by simp⟩
  | error fault r =>
      obtain ⟨hstall, T, hT⟩ := hfollows.error hitems
      rw [hT]
      cases fault with
      | malformed error => exact ⟨rfl, by simp⟩
      | numeralTooLong digits => exact ⟨rfl, by simp⟩
      | stalled => exact absurd rfl hstall

end Document

end DiagramText
