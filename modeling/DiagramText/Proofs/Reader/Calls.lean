import DiagramText.Proofs.Tokens

/-!
# Calls on a reader

A reader is used by calls: it is asked to look ahead, with or without regard to
the line, to consume a token, to consume a mark that has to stand ahead, and to
hand over the comments it has collected (`Call`).  A call may fail, and the
reader is then used on from where it stands.

A call delivers a piece of the source when it collects a comment or consumes a
token (`Call.delivered`).  Whatever the calls are, in whatever modes, and
whether or not they fail, what they deliver stands in the source in this order,
each piece once, with nothing but white space in between (`delivered_tiles`).

That is so because a reader never goes back past its front, the start of the
token ahead or the cursor where none is ahead.  A look moves the front over
white space and the comments that it collects (`fillUpTo_glides`), also where it
fails, and a token that is consumed begins right at the front.
-/

namespace DiagramText

variable {source : Text} {start mid stop : Nat}

namespace Mode.Gap

variable {mode : Mode}

theorem refl (mode : Mode) (source : Text) (start : Nat) : mode.Gap source start start :=
  ⟨Nat.le_refl _, fun _ _ hstart hstop => by omega⟩

/-- Two gaps one after the other are a gap. -/
theorem trans (h : mode.Gap source start mid) (h' : mode.Gap source mid stop) :
    mode.Gap source start stop := by
  refine ⟨Nat.le_trans h.le h'.le, fun offset c hstart hstop hc => ?_⟩
  by_cases hmid : offset < mid
  · exact h.skipped offset c hstart hmid hc
  · exact h'.skipped offset c (by omega) hstop hc

/-- What any mode skips the lists of arguments skip, too: it is white space. -/
theorem blank (h : mode.Gap source start stop) : Mode.Gap .arguments source start stop :=
  ⟨h.le, fun offset c hstart hstop hc => isBlank_of_skips (h.skipped offset c hstart hstop hc)⟩

end Mode.Gap

/-- From the one offset up to the other stand these tokens, with nothing but white space before,
between and after them. -/
def Strewn (source : Text) (start : Nat) (tokens : List Token) (stop : Nat) : Prop :=
  ∃ last, Tiles .arguments source start tokens last ∧ Mode.Gap .arguments source last stop

namespace Strewn

variable {tokens others : List Token}

/-- In a gap no tokens are strewn. -/
theorem of_gap {mode : Mode} (h : mode.Gap source start stop) : Strewn source start [] stop :=
  ⟨start, .nil, h.blank⟩

theorem refl (source : Text) (start : Nat) : Strewn source start [] start :=
  .of_gap (Mode.Gap.refl .arguments source start)

/-- Tokens are not strewn backwards. -/
theorem le (h : Strewn source start tokens stop) : start ≤ stop := by
  obtain ⟨last, htiles, hgap⟩ := h
  have hlength := htiles.length_le
  have hle := hgap.le
  omega

/-- White space before the tokens changes nothing. -/
theorem after_gap (hgap : Mode.Gap .arguments source start mid) (h : Strewn source mid tokens stop) :
    Strewn source start tokens stop := by
  obtain ⟨last, htiles, hlast⟩ := h
  cases htiles with
  | nil => exact .of_gap (hgap.trans hlast)
  | cons gap tile later => exact ⟨last, .cons (hgap.trans gap) tile later, hlast⟩

/-- One more token in front, with a gap before it. -/
theorem cons {mode : Mode} {first last : Nat} {token : Token} (hgap : mode.Gap source start first)
    (htile : token.Tile source first last) (h : Strewn source last others stop) :
    Strewn source start (token :: others) stop := by
  obtain ⟨final, htiles, hfinal⟩ := h
  exact ⟨final, .cons hgap.blank htile htiles, hfinal⟩

/-- What stands up to an offset and what stands from there on.  The induction is on the tiles up to
the offset. -/
theorem append (h : Strewn source start tokens mid) (h' : Strewn source mid others stop) :
    Strewn source start (tokens ++ others) stop := by
  obtain ⟨last, htiles, hlast⟩ := h
  induction htiles with
  | nil => exact h'.after_gap hlast
  | cons gap tile _ ih => exact .cons gap tile (ih hlast)

end Strewn

namespace Reader

variable {r r' r'' : Reader} {mode : Mode} {token : Token} {tokens others : List Token}

/-- The reader has passed over white space and these comments, which it collected. -/
structure Yields (source : Text) (r : Reader) (tokens : List Token) (r' : Reader) : Prop where
  sound : r'.Sound
  placed : r'.Placed source
  comments : r'.comments = r.comments ++ tokens
  areComments : ∀ token ∈ tokens, token.kind.isComment = true
  strewn : Strewn source r.front.position.offset tokens r'.front.position.offset

theorem Yields.refl (hr : r.Sound) (hplaced : r.Placed source) : Yields source r [] r :=
  ⟨hr, hplaced, (List.append_nil _).symm, by simp, .refl _ _⟩

/-- What is passed over in turn is passed over together. -/
theorem Yields.trans (h : Yields source r tokens r') (h' : Yields source r' others r'') :
    Yields source r (tokens ++ others) r'' where
  sound := h'.sound
  placed := h'.placed
  comments := by rw [h'.comments, h.comments, List.append_assoc]
  areComments := List.forall_mem_append.mpr ⟨h.areComments, h'.areComments⟩
  strewn := h.strewn.append h'.strewn

/-- Passing over comments does not move the place back. -/
theorem Yields.place_le (h : Yields source r tokens r') : r.place ≤ r'.place := by
  have hle := h.strewn.le
  rw [place, place]
  omega

/-- Only the front and the comments matter. -/
theorem Yields.of_rewound (h : Yields source r.rewound tokens r') : Yields source r tokens r' :=
  ⟨h.sound, h.placed, h.comments, h.areComments, h.strewn⟩

/-- With nothing ahead a reader skips blanks from its cursor on. -/
theorem skip_gap (hahead : r.lookahead = none) (hplaced : r.Placed source) (mode : Mode) :
    (r.cursor.skip mode).On source ∧
      mode.Gap source r.front.position.offset (r.cursor.skip mode).position.offset ∧
      (r.cursor.skip mode).rest.Begins fun c => mode.skips c = false := by
  have hskip := Cursor.On.skip hplaced mode
  rwa [front_eq_cursor hahead] at hskip ⊢

section turns

variable (hahead : r.lookahead = none) (hr : r.Sound) (hplaced : r.Placed source)

include hahead hr hplaced

/-- A turn that stops at a fault. -/
theorem standing_yields (mode : Mode) : Yields source r [] (r.standing (r.cursor.skip mode)) := by
  obtain ⟨hhere, hgap, _⟩ := skip_gap hahead hplaced mode
  have hfront := front_standing hahead (r.cursor.skip mode)
  refine ⟨⟨?_, hr.comments⟩, ?_, (List.append_nil _).symm, by simp, ?_⟩
  · intro lookahead h
    cases hahead.symm.trans h
  · rwa [Placed, hfront]
  · rw [hfront]
    exact .of_gap hgap

/-- A turn that collects a comment. -/
theorem past_yields (htoken : (r.cursor.skip mode).token mode = .ok token)
    (hcomment : token.kind.isComment = true) :
    Yields source r [token] (r.past (r.cursor.skip mode) token) := by
  obtain ⟨hhere, hgap, _⟩ := skip_gap hahead hplaced mode
  have hfront := front_past hahead (r.cursor.skip mode) token
  have hkind : token.kind ≠ .eof := fun heof => by simp [heof, TokenKind.isComment] at hcomment
  refine ⟨⟨?_, ?_⟩, ?_, rfl, by simpa using hcomment, ?_⟩
  · intro lookahead h
    cases hahead.symm.trans h
  · exact List.forall_mem_append.mpr
      ⟨hr.comments, List.forall_mem_singleton.mpr (isComment_of_token htoken hcomment)⟩
  · rw [Placed, hfront]
    exact hhere.advance (span_of_token htoken).2.2
  · rw [hfront]
    exact .cons hgap (hhere.tile htoken hkind) (.refl _ _)

/-- A turn that keeps the token ahead. -/
theorem facing_yields (htoken : (r.cursor.skip mode).token mode = .ok token)
    (hplain : token.kind.isComment = false) :
    Yields source r [] (r.facing mode (r.cursor.skip mode) token) := by
  obtain ⟨hhere, hgap, hbegins⟩ := skip_gap hahead hplaced mode
  refine ⟨⟨?_, hr.comments⟩, hhere, (List.append_nil _).symm, by simp, .of_gap hgap⟩
  intro lookahead h
  obtain rfl := Option.some.inj h
  exact ⟨Mode.strip_eq_self hbegins, htoken, hplain, rfl⟩

end turns

/-- The reader has passed over white space and these comments, which it collected, and remembers whether
one of them ended the line. -/
structure Glides (source : Text) (r : Reader) (tokens : List Token) (r' : Reader) : Prop extends
    Yields source r tokens r' where
  line : r'.lineBreak = (r.lineBreak || tokens.any (·.endsLine))

theorem Glides.refl (hr : r.Sound) (hplaced : r.Placed source) : Glides source r [] r :=
  ⟨.refl hr hplaced, (Bool.or_false _).symm⟩

/-- Two looks in turn pass over the comments of both, and either may end a line. -/
theorem Glides.trans (h : Glides source r tokens r') (h' : Glides source r' others r'') :
    Glides source r (tokens ++ others) r'' :=
  ⟨h.toYields.trans h'.toYields, by rw [h'.line, h.line, List.any_append, Bool.or_assoc]⟩

/-- Reading on to a token passes over white space and the comments that it collects, and so it does
up to a fault. -/
theorem fillUpTo_glides (mode : Mode) (limit : Nat) (r : Reader) (hahead : r.lookahead = none)
    (hr : r.Sound) (hplaced : r.Placed source) :
    Ends (fillUpTo mode limit) r (fun _ r' => ∃ tokens, Glides source r tokens r')
      fun _ r' => ∃ tokens, Glides source r tokens r' := by
  refine fillUpTo_along (fun r' => ∃ tokens, Glides source r tokens r') ?_ ?_ ?_ ?_ limit r hahead
    ⟨[], .refl hr hplaced⟩
  · exact fun _ h => h
  · rintro r' error hahead' ⟨tokens, h⟩ _
    have hturn := standing_yields hahead' h.sound h.placed mode
    exact ⟨_, h.trans ⟨hturn, (Bool.or_false _).symm⟩⟩
  · rintro r' token hahead' ⟨tokens, h⟩ htoken hcomment
    have hturn := past_yields hahead' h.sound h.placed htoken hcomment
    exact ⟨_, h.trans ⟨hturn, by simp⟩⟩
  · rintro r' token hahead' ⟨tokens, h⟩ htoken hplain
    have hturn := facing_yields hahead' h.sound h.placed htoken hplain
    exact ⟨_, h.trans ⟨hturn, (Bool.or_false _).symm⟩⟩

/-- Looking ahead passes over white space and the comments that it collects, also where it fails. -/
theorem peek_glides (hr : r.Sound) (hplaced : r.Placed source) (mode : Mode) :
    Ends (peek mode) r (fun token r' => r'.Shows mode token ∧ ∃ tokens, Glides source r tokens r')
      fun _ r' => ∃ tokens, Glides source r tokens r' := by
  have hsame : ∀ r', (∃ tokens, Glides source r.rewound tokens r') →
      ∃ tokens, Glides source r tokens r' :=
    fun _ => Exists.imp fun _ h => ⟨h.of_rewound, h.line⟩
  have hglides : Ends (peek mode) r (fun _ r' => ∃ tokens, Glides source r tokens r')
      fun _ r' => ∃ tokens, Glides source r tokens r' := by
    rw [ends_peek hr]
    have hfill := fillUpTo_glides mode (r.rewound.cursor.rest.length + 1) r.rewound rfl
      hr.rewound (hplaced : r.rewound.Placed source)
    exact hfill.mono (fun _ => hsame) fun _ => hsame
  have hshows : Ends (peek mode) r (fun token r' => r'.Shows mode token) fun _ _ => True :=
    (peek_spec hr mode).mono (fun _ _ h => h.shows) fun _ _ _ => trivial
  unfold Ends at hglides hshows ⊢
  split at hglides
  · next hpeek =>
      rw [hpeek] at hshows
      exact ⟨hshows, hglides⟩
  · exact hglides

/-- The token ahead is a tile at the front. -/
theorem Shows.tile (h : r.Shows mode token) (hr : r.Sound) (hplaced : r.Placed source)
    (hkind : token.kind ≠ .eof) :
    token.Tile source r.front.position.offset
      (r.front.advance token.text.length).position.offset :=
  Cursor.On.tile hplaced (h.token_front hr) hkind

/-- The token ahead stands between the fronts before and after it is consumed. -/
theorem Shows.strewn (h : r.Shows mode token) (hr : r.Sound) (hplaced : r.Placed source)
    (hkind : token.kind ≠ .eof) :
    Strewn source r.front.position.offset [token] r.consumed.front.position.offset := by
  rw [h.front_consumed hr]
  exact .cons (Mode.Gap.refl .arguments source _) (h.tile hr hplaced hkind) (.refl _ _)

/-! ## Calls -/

/-- A use that is made of a reader. -/
inductive Call where
  | peek (mode : Mode)
  | peekSameLine (mode : Mode)
  | advance (mode : Mode)
  | expect (mode : Mode) (mark : Text)
  | takeComments
deriving DecidableEq, Repr

namespace Call

/-- Makes the call, which answers with tokens. -/
def run : Call → Parser (List Token)
  | .peek mode => return [← Reader.peek mode]
  | .peekSameLine mode => return (← Reader.peekSameLine mode).toList
  | .advance mode => return [← Reader.advance mode]
  | .expect mode mark => return [← Reader.expect mode mark]
  | .takeComments => Reader.takeComments

/-- The reader after the call, whether or not it fails. -/
def after (call : Call) (r : Reader) : Reader :=
  match call.run r with
  | .ok _ r' => r'
  | .error _ r' => r'

/-- The comments that the call adds to those collected before. -/
def collected (call : Call) (r : Reader) : List Token :=
  (call.after r).comments.drop r.comments.length

/-- The token that the call consumes.  The end of the source is not consumed. -/
def consumed (call : Call) (r : Reader) : List Token :=
  match call, call.run r with
  | .advance _, .ok tokens _ => tokens.filter (·.kind ≠ .eof)
  | .expect .., .ok tokens _ => tokens.filter (·.kind ≠ .eof)
  | _, _ => []

/-- The comments that the call hands over. -/
def taken (call : Call) (r : Reader) : List Token :=
  match call, call.run r with
  | .takeComments, .ok tokens _ => tokens
  | _, _ => []

/-- What the call delivers: the comments on its way, and then the token. -/
def delivered (call : Call) (r : Reader) : List Token :=
  call.collected r ++ call.consumed r

end Call

/-- The reader after some calls. -/
def after (calls : List Call) (r : Reader) : Reader :=
  calls.foldl (fun r call => call.after r) r

/-- What some calls give, one after another. -/
def along (given : Call → Reader → List Token) : List Call → Reader → List Token
  | [], _ => []
  | call :: calls, r => given call r ++ along given calls (call.after r)

/-- What a call does to a reader on a source: the tokens that it delivers stand between the fronts, and
the comments among them are handed over or kept. -/
structure Call.Delivers (source : Text) (call : Call) (r : Reader) : Prop where
  sound : (call.after r).Sound
  placed : (call.after r).Placed source
  strewn : Strewn source r.front.position.offset (call.delivered r)
    (call.after r).front.position.offset
  comments : r.comments ++ call.collected r = call.taken r ++ (call.after r).comments
  areComments : ∀ token ∈ call.collected r, token.kind.isComment = true
  plain : ∀ token ∈ call.consumed r, token.kind.isComment = false

namespace Call.Delivers

variable {call : Call}

/-- A call that only looks ahead. -/
theorem of_yields (hafter : call.after r = r') (hconsumed : call.consumed r = [])
    (htaken : call.taken r = []) (h : Yields source r tokens r') : call.Delivers source r := by
  have hcollected : call.collected r = tokens := by
    rw [collected, hafter, h.comments, List.drop_left]
  refine ⟨hafter ▸ h.sound, hafter ▸ h.placed, ?_, ?_, ?_, ?_⟩
  · rw [delivered, hcollected, hconsumed, List.append_nil, hafter]
    exact h.strewn
  · rw [hcollected, htaken, hafter, List.nil_append, h.comments]
  · rw [hcollected]
    exact h.areComments
  · simp [hconsumed]

/-- A call that consumes the token which it sees ahead. -/
theorem of_shows (hafter : call.after r = r'.consumed) (hconsumed : call.consumed r = [token])
    (htaken : call.taken r = []) (h : Yields source r tokens r') (hshows : r'.Shows mode token)
    (hkind : token.kind ≠ .eof) : call.Delivers source r := by
  have hcollected : call.collected r = tokens := by
    rw [collected, hafter, Reader.consumed, h.comments, List.drop_left]
  have hplain := hshows.not_isComment h.sound
  refine ⟨hafter ▸ h.sound.consumed, hafter ▸ hshows.placed_consumed h.sound h.placed, ?_, ?_, ?_, ?_⟩
  · rw [delivered, hcollected, hconsumed, hafter]
    exact h.strewn.append (hshows.strewn h.sound h.placed hkind)
  · rw [hcollected, htaken, hafter, List.nil_append, Reader.consumed, h.comments]
  · rw [hcollected]
    exact h.areComments
  · simpa [hconsumed] using hplain

end Call.Delivers

namespace Call

variable {call : Call} {fault : Fault}

theorem after_of_ok (h : call.run r = .ok tokens r') : call.after r = r' := by
  rw [Call.after, h]

theorem after_of_error (h : call.run r = .error fault r') : call.after r = r' := by
  rw [Call.after, h]

/-- A call that fails only looked ahead. -/
theorem delivers_of_error (h : call.run r = .error fault r') (hyields : Yields source r tokens r') :
    call.Delivers source r := by
  refine .of_yields (after_of_error h) ?_ ?_ hyields
  · cases call <;> simp [consumed, h]
  · cases call <;> simp [taken, h]

/-- A call that first looks ahead delivers what the look collects and what follows it consumes. -/
theorem delivers_of_peek {next : Token → Parser (List Token)} (hr : r.Sound)
    (hplaced : r.Placed source) (hfirst : call.run r = (Reader.peek mode >>= next) r)
    (hseen : ∀ token r' tokens, Yields source r tokens r' → r'.Shows mode token →
      call.run r = next token r' → call.Delivers source r) : call.Delivers source r := by
  cases hpeek : Reader.peek mode r with
  | ok token r' =>
      obtain ⟨hshows, tokens, hglides⟩ := (peek_glides hr hplaced mode).ok hpeek
      exact hseen token r' tokens hglides.toYields hshows (hfirst.trans (bind_ok hpeek))
  | error fault r' =>
      obtain ⟨tokens, hglides⟩ := (peek_glides hr hplaced mode).error hpeek
      exact delivers_of_error (hfirst.trans (bind_error hpeek)) hglides.toYields

/-- Every call, in whatever mode and also where it fails, delivers tokens that stand between the front
before it and the front after it. -/
theorem delivers (hr : r.Sound) (hplaced : r.Placed source) (call : Call) :
    call.Delivers source r := by
  cases call with
  | peek mode =>
      refine delivers_of_peek hr hplaced rfl fun token r' tokens hyields _ hrun => ?_
      exact .of_yields (after_of_ok hrun) rfl rfl hyields
  | peekSameLine mode =>
      refine delivers_of_peek hr hplaced (congrFun (bind_assoc _ _ _) r) ?_
      intro token r' tokens hyields _ hrun
      exact .of_yields (after_of_ok hrun) rfl rfl hyields
  | advance mode =>
      refine delivers_of_peek hr hplaced (congrFun (bind_assoc _ _ _) r) ?_
      intro token r' tokens hyields hshows hrun
      by_cases hkind : token.kind = .eof
      · rw [if_neg (fun hne => hne hkind)] at hrun
        have hend : (Call.advance mode).run r = .ok [token] r' := hrun
        exact .of_yields (after_of_ok hend) (by simp [consumed, hend, hkind]) rfl hyields
      · rw [if_pos hkind] at hrun
        have htoken : (Call.advance mode).run r = .ok [token] r'.consumed := hrun
        refine .of_shows (after_of_ok htoken) ?_ rfl hyields hshows hkind
        simp [consumed, htoken, hkind]
  | expect mode mark =>
      refine delivers_of_peek hr hplaced (congrFun (bind_assoc _ _ _) r) ?_
      intro token r' tokens hyields hshows hrun
      by_cases hmark : token.isPunctOf [mark] = true
      · have hkind : token.kind ≠ .eof := by simp [Token.kind_of_isPunctOf hmark]
        rw [if_pos hmark, bind_ok (hshows.advance_eq hkind)] at hrun
        have htoken : (Call.expect mode mark).run r = .ok [token] r'.consumed := hrun
        refine .of_shows (after_of_ok htoken) ?_ rfl hyields hshows hkind
        simp [consumed, htoken, hkind]
      · rw [if_neg hmark] at hrun
        exact delivers_of_error hrun hyields
  | takeComments =>
      have hrun : Call.takeComments.run r = .ok r.comments { r with comments := [] } := rfl
      have hafter := after_of_ok hrun
      refine ⟨?_, ?_, ?_, ?_, ?_, ?_⟩
      · rw [hafter]
        exact ⟨hr.lookahead, by simp⟩
      · rw [hafter]
        exact hplaced
      · simp only [delivered, collected, consumed, hafter, List.drop_nil, List.append_nil]
        exact .refl source _
      · simp [collected, taken, hrun, hafter]
      · simp [collected, hafter]
      · simp [consumed]

end Call

/-! ## Runs of calls -/

/-- The comments among what calls deliver are handed over or kept; all else was consumed.  The
induction is on the calls: each leaves a reader that is sound and on the source. -/
theorem delivered_along (hr : r.Sound) (hplaced : r.Placed source) (calls : List Call) :
    ((after calls r).Sound ∧ (after calls r).Placed source) ∧
      Strewn source r.front.position.offset (along Call.delivered calls r)
        (after calls r).front.position.offset ∧
      r.comments ++ (along Call.delivered calls r).filter (·.kind.isComment) =
        along Call.taken calls r ++ (after calls r).comments ∧
      (along Call.delivered calls r).filter (!·.kind.isComment) = along Call.consumed calls r := by
  induction calls generalizing r with
  | nil => exact ⟨⟨hr, hplaced⟩, .refl _ _, by simp [along, after], rfl⟩
  | cons call calls ih =>
      have hcall := call.delivers hr hplaced
      obtain ⟨hlast, hstrewn, hcomments, hconsumed⟩ := ih hcall.sound hcall.placed
      have hfound : (call.delivered r).filter (·.kind.isComment) = call.collected r := by
        rw [Call.delivered, List.filter_append, List.filter_eq_self.mpr hcall.areComments,
          List.filter_eq_nil_iff.mpr (by simpa using hcall.plain), List.append_nil]
      have hothers : (call.delivered r).filter (!·.kind.isComment) = call.consumed r := by
        rw [Call.delivered, List.filter_append,
          List.filter_eq_nil_iff.mpr (by simpa using hcall.areComments), List.nil_append,
          List.filter_eq_self.mpr (by simpa using hcall.plain)]
      refine ⟨hlast, hcall.strewn.append hstrewn, ?_, ?_⟩
      · calc r.comments ++ (along Call.delivered (call :: calls) r).filter (·.kind.isComment)
          _ = (r.comments ++ call.collected r) ++
                (along Call.delivered calls (call.after r)).filter (·.kind.isComment) := by
              rw [along, List.filter_append, hfound, List.append_assoc]
          _ = call.taken r ++ ((call.after r).comments ++
                (along Call.delivered calls (call.after r)).filter (·.kind.isComment)) := by
              rw [hcall.comments, List.append_assoc]
          _ = along Call.taken (call :: calls) r ++ (after (call :: calls) r).comments := by
              rw [hcomments, along, List.append_assoc]
              rfl
      · rw [along, List.filter_append, hothers, hconsumed, along]

/-- A reader delivers each piece of its source at most once, whatever calls are made on it in whatever
modes, and whether or not they fail.  What the calls deliver, the comments they collect and the tokens
they consume in the order of these events, tiles the source from its front up to where the reader
stands, and all that is passed over before, between and after these tokens is white space.  The comments
among them are those that were handed over and those that wait; all others were consumed. -/
theorem delivered_tiles (source : Text) (calls : List Call) :
    let reader := after calls (ofText source)
    let delivered := along Call.delivered calls (ofText source)
    (∃ stop, Tiles .arguments source 0 delivered stop ∧
        Mode.Gap .arguments source stop reader.front.position.offset) ∧
      delivered.filter (·.kind.isComment) =
        along Call.taken calls (ofText source) ++ reader.comments ∧
      delivered.filter (!·.kind.isComment) = along Call.consumed calls (ofText source) := by
  obtain ⟨_, hstrewn, hcomments, hconsumed⟩ :=
    delivered_along (sound_ofText source) (placed_ofText source) calls
  exact ⟨hstrewn, hcomments, hconsumed⟩

/-- A quote that is never closed stops a look at a statement; as a label the reader goes on with it. -/
example : (along Call.delivered [.peek .label, .advance .declaration, .peek .declaration,
      .takeComments, .advance .label] (ofText "a #b\n 'c".toList)).map (·.text) =
    ["a".toList, "#b\n".toList, "'c".toList] := by
  decide +kernel

end Reader

end DiagramText
