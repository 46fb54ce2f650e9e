import DiagramText.Proofs.Grammar.Written
import DiagramText.Proofs.Reader.Extension

/-!
# The grammar on a source and on a longer one

What the grammar reads from a source it also reads from the source when a line
break and further text follow, up to spans, and wherever the source stands.
For each program of the grammar there is one statement of this, `Mirrors`
between the program on the one reader and on the other.

A program that has to consume something keeps the readers at the same place.
One that may stop at the end of the source can leave the other reader over that
end, from where `finish` takes it into the further text (`Arrived`).
-/

namespace DiagramText

open Grammar Reader

/-- The token without its span. -/
def Token.bare (token : Token) : Token :=
  { token with span := .nowhere }

/-- Tokens are the same up to their spans if they have the same kind and the same text. -/
theorem Token.bare_eq_iff {a b : Token} : a.bare = b.bare ↔ a.kind = b.kind ∧ a.text = b.text := by
  obtain ⟨kind, text, span⟩ := a
  obtain ⟨kind', text', span'⟩ := b
  simp [Token.bare]

/-- Whether the token is the end of the source or of a line. -/
def Token.IsEnd (token : Token) : Prop :=
  token.kind = .eof ∨ token.kind = .terminator

/-- The end of the source or of a line is no mark. -/
theorem Token.IsEnd.isPunct {token : Token} (h : token.IsEnd) (mark : Char) :
    token.isPunct mark = false := by
  refine Bool.eq_false_iff.mpr fun hmark => ?_
  have hkind := Token.kind_of_isPunctOf hmark
  rcases h with h | h <;> rw [hkind] at h <;> cases h

namespace Reader

variable {further : Option Text} {r r₁ r' r₁' : Reader} {mode : Mode} {token token' : Token}

theorem Reaches.sound (h : Reaches further r r') : r.Sound := by
  cases h with
  | aligned h => exact h.sound
  | crossed _ h => exact h.sound

theorem Reaches.sound' (h : Reaches further r r') : r'.Sound := by
  cases h with
  | aligned h => exact h.sound'
  | crossed _ h => exact h.sound'

/-- Both readers see the same token at the same place, or the first is at an end. -/
theorem Look.same_or_end (h : Look further token r token' r') :
    (Aligned further r r' ∧ token'.kind = token.kind ∧ token'.text = token.text) ∨
      (token.IsEnd ∧ Reaches further r r') := by
  cases h with
  | same aligned kind text => exact .inl ⟨aligned, kind, text⟩
  | last _ aligned ends _ _ =>
      exact .inr ⟨ends.imp (fun h => h.1) fun h => h.1, .aligned aligned⟩
  | crossed hfurther crossed eof => exact .inr ⟨.inl eof, .crossed hfurther crossed⟩

/-- The readers stand at the same place, of which the one may be on a line of its own. -/
structure Beside (further : Option Text) (r r' : Reader) : Prop where
  sound : r.Sound
  sound' : r'.Sound
  text : r'.text = r.text ++ tail further
  remarks : r'.remarks = r.remarks

/-- Readers at the same place stand beside each other, on whichever line. -/
theorem Aligned.beside (h : Aligned further r r') : Beside further r r' :=
  ⟨h.sound, h.sound', h.text, h.remarks⟩

/-- Both readers have the same token ahead at the same place. -/
structure Meets (further : Option Text) (mode : Mode) (token : Token) (r : Reader)
    (token' : Token) (r' : Reader) : Prop where
  beside : Beside further r r'
  shows : r.Shows mode token
  shows' : r'.Shows mode token'
  kind : token'.kind = token.kind
  text : token'.text = token.text

namespace Meets

/-- The two tokens are the same mark, or neither is. -/
theorem isPunct (h : Meets further mode token r token' r') (mark : Char) :
    token'.isPunct mark = token.isPunct mark := by
  simp only [Token.isPunct, Token.isPunctOf, h.kind, h.text]

/-- Both readers have the same token ahead, up to its span. -/
theorem bare (h : Meets further mode token r token' r') : token'.bare = token.bare :=
  Token.bare_eq_iff.mpr ⟨h.kind, h.text⟩

/-- Consuming the same token leaves the readers at the same place, and on its line. -/
theorem consumed (h : Meets further mode token r token' r') :
    Aligned further r.consumed r'.consumed := by
  refine ⟨h.beside.sound.consumed, h.beside.sound'.consumed, ?_, h.beside.remarks, rfl⟩
  have hle := (Mode.scan_bounds (h.shows.scan h.beside.sound).1).1
  rw [h.shows.text_consumed h.beside.sound, h.shows'.text_consumed h.beside.sound', h.text,
    h.beside.text, List.drop_append_of_le_length hle]

/-- Both readers consume the token ahead. -/
theorem advance {lost : Prop} (h : Meets further mode token r token' r')
    (hkind : token.kind ≠ .eof) :
    Mirrors lost (advance mode) r (Reader.advance mode) r'
      (fun a s b s' => a = token ∧ b = token' ∧ Aligned further s s') := by
  intro a s hrun
  rw [h.shows.advance_eq hkind] at hrun
  obtain ⟨rfl, rfl⟩ : token = a ∧ r.consumed = s := by simpa using hrun
  exact h.shows'.advance_spec (h.kind ▸ hkind) ⟨rfl, rfl, h.consumed⟩

/-- Both readers look at the token ahead. -/
theorem peek {lost : Prop} (h : Meets further mode token r token' r') :
    Mirrors lost (peek mode) r (Reader.peek mode) r'
      (fun a s b s' => (a = token ∧ s = r) ∧ b = token' ∧ s' = r') := by
  intro a s hrun
  rw [h.shows.peek_eq] at hrun
  obtain ⟨rfl, rfl⟩ : token = a ∧ r = s := by simpa using hrun
  exact (ends_of_ok h.shows'.peek_eq).mpr ⟨⟨rfl, rfl⟩, rfl, rfl⟩

end Meets

/-- The readers stand before the same, or the other has looked over the end of the first. -/
inductive Fronts (further : Option Text) (mode : Mode) (r r' : Reader) : Prop
  | reaches (h : Reaches further r r')
  | meets {token token' : Token} (h : Meets further mode token r token' r')

/-- Both readers look ahead in a mode of the line. -/
theorem look_mirrors (h : Reaches further r r') (hmode : mode.IsLine) :
    Mirrors (Lost further) (peek mode) r (peek mode) r'
      (fun token s token' s' => s.Shows mode token ∧ s'.Shows mode token' ∧
        Look further token s token' s') := by
  intro token s hpeek
  have hshows := ((peek_spec h.sound mode).ok hpeek).shows
  exact (peek_mirrors h hmode hpeek).imp fun _ _ h => ⟨hshows, h.1, h.2⟩

/-- Both readers look ahead for a token that is no end, in any mode, and come to the same. -/
theorem Aligned.meet (h : Aligned further r r') (hpeek : Reader.peek mode r = .ok token r₁)
    (hgoes : ¬ token.IsEnd) :
    Ends (Reader.peek mode) r' (fun token' r₁' => Meets further mode token r₁ token' r₁')
      (fun _ _ => False) := by
  have hsees := (peek_spec h.sound mode).ok hpeek
  refine (h.peek hsees fun _ heof => hgoes (.inl heof)).imp ?_
  rintro token' r₁' ⟨hshows', hlook⟩
  rcases hlook.same_or_end with ⟨haligned, hkind, htext⟩ | ⟨hend, _⟩
  · exact ⟨haligned.beside, hsees.shows, hshows', hkind, htext⟩
  · exact absurd hend hgoes

/-- Both readers look ahead, in any mode, where the first program fails at an end: both come to the
same token. -/
theorem meet_mirrors {α β : Type} {lost : Prop} {k : Token → Parser α} {k' : Token → Parser β}
    {post : α → Reader → β → Reader → Prop} (h : Fronts further mode r r')
    (hend : ∀ token s, token.IsEnd → ∃ fault u, k token s = .error fault u)
    (hk : ∀ token s token' s', Meets further mode token s token' s' →
      Mirrors lost (k token) s (k' token') s' post) :
    Mirrors lost (peek mode >>= k) r (peek mode >>= k') r' post := by
  intro a u hrun
  obtain ⟨token, s, hpeek, hrest⟩ := bind_eq_ok.mp hrun
  have hgoes : ¬ token.IsEnd := by
    intro hfound
    obtain ⟨fault, v, herror⟩ := hend token s hfound
    cases herror.symm.trans hrest
  rcases h with (h | ⟨hfurther, h⟩) | h
  · refine ends_bind.mpr ((h.meet hpeek hgoes).mono ?_ fun _ _ hfalse => hfalse.elim)
    intro token' s' hmeets
    exact hk _ _ _ _ hmeets a u hrest
  · have hsees := (peek_spec h.sound mode).ok hpeek
    exact absurd (.inl (hsees.of_finds (h.text ▸ Mode.finds_nil)).1) hgoes
  · have hsame : Mirrors lost (peek mode) r (peek mode) r' _ := h.peek
    refine ends_bind.mpr ((hsame token s hpeek).imp ?_)
    rintro token' s' ⟨⟨rfl, rfl⟩, rfl, rfl⟩
    exact hk _ _ _ _ h a u hrest

/-- What both readers see on the same line: the same token ahead, or nothing that a declaration
could go on with. -/
inductive Seen (further : Option Text) (mode : Mode) (seen : Option Token) (r : Reader)
    (seen' : Option Token) (r' : Reader) : Prop
  | token {token token' : Token} (hseen : seen = some token) (hseen' : seen' = some token')
      (aligned : Aligned further r r') (meets : Meets further mode token r token' r')
  | void (void : ∀ token, seen = some token → token.IsEnd ∧ r.Shows mode token)
      (void' : ∀ token, seen' = some token → token.IsEnd ∧ r'.Shows mode token)
      (reaches : Reaches further r r')

/-- Both readers look ahead on the same line. -/
theorem peekSameLine_mirrors (h : Reaches further r r') (hmode : mode.IsLine) :
    Mirrors (Lost further) (peekSameLine mode) r (peekSameLine mode) r' (Seen further mode) := by
  unfold peekSameLine
  refine (look_mirrors h hmode).bind ?_
  rintro token s token' s' ⟨hshows, hshows', hlook⟩ seen u hrun
  obtain ⟨rfl, rfl⟩ : (if s.lineBreak then none else some token) = seen ∧ s = u := by
    cases hrun
    exact ⟨rfl, rfl⟩
  simp only [ends_bind, ends_get, ends_pure]
  rcases hlook.same_or_end with ⟨haligned, hkind, htext⟩ | ⟨hend, hreaches⟩
  · rw [haligned.lineBreak]
    by_cases hbreak : s.lineBreak = true
    · rw [if_pos hbreak, if_pos hbreak]
      exact .void (by simp) (by simp) (.aligned haligned)
    · rw [if_neg hbreak, if_neg hbreak]
      exact .token rfl rfl haligned ⟨haligned.beside, hshows, hshows', hkind, htext⟩
  · refine .void ?_ ?_ hreaches
    · intro found hfound
      split at hfound
      · cases hfound
      · exact Option.some.inj hfound ▸ ⟨hend, hshows⟩
    · intro found hfound
      split at hfound
      · cases hfound
      · next hbreak =>
          obtain rfl := Option.some.inj hfound
          refine ⟨?_, hshows'⟩
          cases hlook with
          | same _ kind _ => exact hend.imp (kind.trans ·) (kind.trans ·)
          | last _ _ _ terminator _ => exact .inr terminator
          | crossed _ crossed _ => exact absurd crossed.lineBreak hbreak

/-- Both readers see the mark on the line and have it ahead at the same place, or neither sees
it. -/
theorem Seen.mark {seen seen' : Option Token} (h : Seen further mode seen r seen' r')
    (mark : Char) :
    (isMark seen mark = true ∧ isMark seen' mark = true ∧
      ∃ token token', seen = some token ∧ seen' = some token' ∧ token.kind ≠ .eof ∧
        Meets further mode token r token' r') ∨
      (isMark seen mark = false ∧ isMark seen' mark = false) := by
  cases h with
  | @token token token' hseen hseen' aligned meets =>
      subst hseen hseen'
      rcases Bool.eq_false_or_eq_true (token.isPunct mark) with hmark | hmark
      · exact .inl ⟨hmark, (meets.isPunct mark).trans hmark, token, token', rfl, rfl,
          Token.kind_ne_eof_of_isPunct hmark, meets⟩
      · exact .inr ⟨hmark, (meets.isPunct mark).trans hmark⟩
  | void void void' reaches =>
      have hend : ∀ found : Option Token, (∀ token, found = some token → token.IsEnd) →
          isMark found mark = false := by
        intro found hfound
        cases found with
        | none => rfl
        | some token => exact (hfound token rfl).isPunct mark
      exact .inr ⟨hend _ fun token h => (void token h).1, hend _ fun token h => (void' token h).1⟩

/-- Whatever is seen on the line, the readers stand before the same afterwards. -/
theorem Seen.reaches {seen seen' : Option Token} (h : Seen further mode seen r seen' r') :
    Reaches further r r' := by
  cases h with
  | token _ _ aligned _ => exact .aligned aligned
  | void _ _ reaches => exact reaches

/-- A mark that may stand ahead on the line. -/
theorem mirrors_mark {α β : Type} {lost : Prop} {mark : Char} {seen seen' : Option Token}
    {p₁ p₂ : Parser α} {q₁ q₂ : Parser β} {post : α → Reader → β → Reader → Prop}
    (hseen : Seen further mode seen r seen' r')
    (h₁ : ∀ token token', seen = some token → seen' = some token' → token.kind ≠ .eof →
      Meets further mode token r token' r' → Mirrors lost p₁ r q₁ r' post)
    (h₂ : Mirrors lost p₂ r q₂ r' post) :
    Mirrors lost (if isMark seen mark = true then p₁ else p₂) r
      (if isMark seen' mark = true then q₁ else q₂) r' post := by
  rcases hseen.mark mark with ⟨hyes, hyes', token, token', h, h', hkind, hmeets⟩ | ⟨hno, hno'⟩
  · rw [if_pos hyes, if_pos hyes']
    exact h₁ token token' h h' hkind hmeets
  · rw [if_neg (by simp [hno]), if_neg (by simp [hno'])]
    exact h₂

section
variable {α β : Type} {lost : Prop} {step : Parser (Option α)} {key : α → β}
  {inside exit : Reader → Reader → Prop} {live : Reader → Prop}

/-- A step that can be repeated on both sides: from readers that are `inside` it gives the same and
leaves them inside, or gives nothing and leaves them at the `exit`.  Whatever a step of the first
reader leaves for the next one is `live`, as is all that a step can be taken from. -/
structure Repeats (lost : Prop) (step : Parser (Option α)) (key : α → β) (live : Reader → Prop)
    (inside exit : Reader → Reader → Prop) : Prop where
  sound : ∀ r r', inside r r' → r.Sound ∧ r'.Sound
  progress : ∀ r : Reader, r.Sound →
    Ends step r (fun found s => ∀ a, found = some a → r.Passes s) Local
  lives : ∀ r found s, r.Sound → step r = .ok found s → live r
  mirrors : ∀ r r', inside r r' → ∀ found s, step r = .ok found s → (found ≠ none → live s) →
    Ends step r' (fun found' s' => found'.map key = found.map key ∧
      (found = none → exit s s') ∧ (found ≠ none → inside s s')) (fun _ _ => lost)

/-- A repetition on both sides.  The turns of the other reader suffice because each of its steps
that gives something consumes something. -/
theorem manyUpTo_mirrors (hrepeats : Repeats lost step key live inside exit)
    (limit limit' : Nat) (r r' : Reader) (h : inside r r') (hlimit : r'.ahead < limit') :
    Mirrors lost (manyUpTo step limit) r (manyUpTo step limit') r'
      (fun found s found' s' => found'.map key = found.map key ∧ exit s s') := by
  induction limit generalizing limit' r r' with
  | zero => exact mirrors_of_error rfl
  | succ limit ih =>
      obtain ⟨limit', rfl⟩ : ∃ n, limit' = n + 1 := ⟨limit' - 1, by omega⟩
      obtain ⟨hsound, hsound'⟩ := hrepeats.sound r r' h
      unfold manyUpTo
      intro all u hrun
      obtain ⟨found, s, hfound, hrest⟩ := bind_eq_ok.mp hrun
      have hgoes : found ≠ none → live s := by
        intro hsome
        obtain ⟨a, rfl⟩ := Option.ne_none_iff_exists'.mp hsome
        obtain ⟨others, v, hothers, _⟩ := bind_eq_ok.mp hrest
        cases limit with
        | zero => cases hothers
        | succ limit =>
            obtain ⟨next, w, hnext, _⟩ := bind_eq_ok.mp hothers
            have hpasses := (hrepeats.progress r hsound).ok hfound a rfl
            exact hrepeats.lives s next w hpasses.sound hnext
      refine ((hrepeats.mirrors r r' h found s hfound hgoes).and
        (hrepeats.progress r' hsound')).bind ?_
      rintro found' s' ⟨⟨hkey, hexit, hreaches⟩, hpasses⟩
      cases found with
      | none =>
          obtain rfl : found' = none := by simpa using hkey
          obtain ⟨rfl, rfl⟩ : [] = all ∧ s = u := by
            cases hrest
            exact ⟨rfl, rfl⟩
          exact ⟨rfl, hexit rfl⟩
      | some a =>
          obtain ⟨a', rfl, ha⟩ : ∃ a', found' = some a' ∧ key a' = key a := by simpa using hkey
          have hless := (hpasses a' rfl).lt
          have hrests : Mirrors lost (manyUpTo step limit >>= fun others => pure (a :: others)) s
              (manyUpTo step limit' >>= fun others => pure (a' :: others)) s'
              (fun found s found' s' => found'.map key = found.map key ∧ exit s s') := by
            refine (ih limit' s s' (hreaches (by simp)) (by omega)).bind ?_
            rintro others u others' u' ⟨hothers, hu⟩
            exact mirrors_pure ⟨by simp [ha, hothers], hu⟩
          exact hrests all u hrest

/-- A repetition on both sides, each with as many turns as it needs. -/
theorem Repeats.many (hrepeats : Repeats lost step key live inside exit) (h : inside r r') :
    Mirrors lost (many step) r (many step) r'
      (fun found s found' s' => found'.map key = found.map key ∧ exit s s') :=
  manyUpTo_mirrors hrepeats _ _ r r' h (Nat.lt_succ_self _)

end

end Reader

namespace Grammar

variable {further : Option Text} {r r' : Reader}

/-! ## Names, expressions and references -/

/-- A part of a name is read on both sides, from the token ahead. -/
theorem namePart_mirrors (h : Fronts further .declaration r r') :
    Mirrors (Lost further) namePart r namePart r'
      (fun part s part' s' => part'.bare = part.bare ∧ Aligned further s s') := by
  unfold namePart
  refine meet_mirrors h ?_ ?_
  · rintro token s (hkind | hkind) <;> rw [hkind] <;> exact ⟨_, _, rfl⟩
  · intro token s token' s' hmeets
    rw [hmeets.kind, hmeets.text]
    split
    · next hident =>
        refine (hmeets.advance (by simp [hident])).bind ?_
        rintro _ u _ u' ⟨_, _, hconsumed⟩
        exact mirrors_pure ⟨rfl, hconsumed⟩
    · next hquoted =>
        refine (hmeets.advance (by simp [hquoted])).bind ?_
        rintro _ u _ u' ⟨_, _, hconsumed⟩
        exact mirrors_pure ⟨rfl, hconsumed⟩
    · exact mirrors_of_error rfl

/-- A field is read on both sides, or none follows on either. -/
theorem fieldStep_mirrors (h : Reaches further r r') :
    Mirrors (Lost further) fieldStep r fieldStep r'
      (fun found s found' s' => found'.map (·.bare) = found.map (·.bare) ∧
        Reaches further s s') := by
  unfold fieldStep
  refine (peekSameLine_mirrors h (.inl rfl)).bind ?_
  intro seen s seen' s' hseen
  refine mirrors_mark hseen (fun token token' _ _ hkind hmeets => ?_)
    (mirrors_pure ⟨rfl, hseen.reaches⟩)
  refine (hmeets.advance hkind).bind ?_
  rintro _ u _ u' ⟨_, _, hconsumed⟩
  refine (namePart_mirrors (.reaches (.aligned hconsumed))).bind ?_
  rintro part v part' v' ⟨hpart, hv⟩
  exact mirrors_pure ⟨by simp [hpart], .aligned hv⟩

/-- The fields of a name are read on both sides. -/
theorem fields_mirrors (h : Reaches further r r') :
    Mirrors (Lost further) fields r fields r'
      (fun found s found' s' => found'.map (·.bare) = found.map (·.bare) ∧
        Reaches further s s') := by
  have hrepeats : Repeats (Lost further) fieldStep (·.bare) (fun _ => True) (Reaches further)
      (Reaches further) := by
    refine ⟨fun _ _ h => ⟨h.sound, h.sound'⟩, ?_, fun _ _ _ _ _ => trivial, ?_⟩
    · intro r hr
      exact (fieldStep_spec hr).imp fun _ _ h a ha => (h.2 a ha).1
    · intro r r' hreaches found s hstep _
      exact (fieldStep_mirrors hreaches found s hstep).imp
        fun _ _ h => ⟨h.1, fun _ => h.2, fun _ => h.2⟩
  rw [fields_eq]
  exact hrepeats.many h

/-- A name with its fields is read on both sides. -/
theorem identifier_mirrors (h : Fronts further .declaration r r') :
    Mirrors (Lost further) identifier r identifier r'
      (fun name s name' s' => name'.bare = name.bare ∧ Reaches further s s') := by
  unfold identifier
  refine (namePart_mirrors h).bind ?_
  rintro head s head' s' ⟨hhead, haligned⟩
  refine (fields_mirrors (.aligned haligned)).bind ?_
  rintro fields u fields' u' ⟨hfields, hreaches⟩
  refine mirrors_pure ⟨?_, hreaches⟩
  obtain ⟨name, quote, _, _⟩ := head
  obtain ⟨name', quote', _, _⟩ := head'
  simp only [Identifier.bare, Identifier.mk.injEq, Identifier.bareAll_eq_map, and_true] at hhead ⊢
  exact ⟨hhead.1, hhead.2.1, hfields⟩

/-- No further name follows the end of the source or of a line. -/
theorem hopFrom_of_isEnd {seen : Option Token} (h : ∀ token, seen = some token → token.IsEnd) :
    hopFrom seen = pure none := by
  cases seen with
  | none => rfl
  | some token =>
      refine if_neg fun hconnection => ?_
      rcases h token rfl with hend | hend <;> rw [hend] at hconnection <;> cases hconnection

/-- A connection and the name it leads to are read on both sides, or none follows on either. -/
theorem hopStep_mirrors (h : Reaches further r r') :
    Mirrors (Lost further) hopStep r hopStep r'
      (fun found s found' s' =>
        found'.map (fun hop => (hop.1.bare, hop.2.bare)) =
          found.map (fun hop => (hop.1.bare, hop.2.bare)) ∧ Reaches further s s') := by
  unfold hopStep
  refine (peekSameLine_mirrors h (.inl rfl)).bind ?_
  rintro seen s seen' s' hseen
  cases hseen with
  | @token token token' hseen hseen' haligned hmeets =>
      subst hseen hseen'
      refine mirrors_ite (by rw [hmeets.kind]) (fun hconnection => ?_) fun _ => ?_
      · refine (hmeets.advance (by simp [hconnection])).bind ?_
        rintro _ u _ u' ⟨_, _, hconsumed⟩
        refine (identifier_mirrors (.reaches (.aligned hconsumed))).bind ?_
        rintro name v name' v' ⟨hname, hv⟩
        exact mirrors_pure ⟨by simp [Connection.bare, hmeets.text, hname], hv⟩
      · exact mirrors_pure ⟨rfl, .aligned haligned⟩
  | void void void' reaches =>
      rw [hopFrom_of_isEnd fun token h => (void token h).1,
        hopFrom_of_isEnd fun token h => (void' token h).1]
      exact mirrors_pure ⟨rfl, reaches⟩

/-- The names connected to the first one are read on both sides. -/
theorem expressionFrom_mirrors {first first' : Identifier} (hfirst : first'.bare = first.bare)
    (h : Reaches further r r') :
    Mirrors (Lost further) (expressionFrom first) r (expressionFrom first') r'
      (fun expression s expression' s' => expression'.bare = expression.bare ∧
        Reaches further s s') := by
  rw [expressionFrom_eq, expressionFrom_eq]
  have hrepeats : Repeats (Lost further) hopStep (fun hop => (hop.1.bare, hop.2.bare))
      (fun _ => True) (Reaches further) (Reaches further) := by
    refine ⟨fun _ _ h => ⟨h.sound, h.sound'⟩, ?_, fun _ _ _ _ _ => trivial, ?_⟩
    · intro r hr
      exact (hopStep_spec hr).imp fun _ _ h a ha => (h.2 a ha).1
    · intro r r' hreaches found s hstep _
      exact (hopStep_mirrors hreaches found s hstep).imp
        fun _ _ h => ⟨h.1, fun _ => h.2, fun _ => h.2⟩
  refine (hrepeats.many h).bind ?_
  rintro hops s hops' s' ⟨hsame, hreaches⟩
  refine mirrors_pure ⟨?_, hreaches⟩
  have hothers := congrArg (List.map Prod.snd) hsame
  have hconnections := congrArg (List.map Prod.fst) hsame
  simp only [List.map_map, Function.comp_def] at hothers hconnections
  simp [Expression.bare, Identifier.bareAll_eq_map, hfirst, Function.comp_def, hothers,
    hconnections]

/-- An expression is read on both sides. -/
theorem expression_mirrors (h : Aligned further r r') :
    Mirrors (Lost further) expression r expression r'
      (fun expression s expression' s' => expression'.bare = expression.bare ∧
        Reaches further s s') := by
  unfold expression
  refine (identifier_mirrors (.reaches (.aligned h))).bind ?_
  rintro first s first' s' ⟨hfirst, hreaches⟩
  exact expressionFrom_mirrors hfirst hreaches

/-- An expected mark is consumed on both sides. -/
theorem expect_mirrors {lost : Prop} {mode : Mode} (h : Fronts further mode r r') (mark : Char) :
    Mirrors lost (expect mode [mark]) r (expect mode [mark]) r'
      (fun token s token' s' => token'.bare = token.bare ∧ Aligned further s s') := by
  unfold expect
  refine meet_mirrors h ?_ ?_
  · intro token s hend
    have hmark := hend.isPunct mark
    rw [Token.isPunct] at hmark
    exact ⟨_, _, by rw [if_neg (by simp [hmark])]; rfl⟩
  · intro token s token' s' hmeets
    have hsame := hmeets.isPunct mark
    rw [Token.isPunct, Token.isPunct] at hsame
    refine mirrors_ite (by rw [hsame]) (fun hmark => ?_) fun _ => mirrors_of_error rfl
    refine (hmeets.advance (Token.kind_ne_eof_of_isPunct hmark)).imp ?_
    rintro _ u _ u' ⟨rfl, rfl, hconsumed⟩
    exact ⟨hmeets.bare, hconsumed⟩

/-- A mark that has to stand ahead is consumed on both sides before what follows. -/
theorem consume_mirrors {α β : Type} {lost : Prop} {mode : Mode} {mark : Char}
    {error error' : Token → SyntaxError} {k : Token → Parser α} {k' : Token → Parser β}
    {post : α → Reader → β → Reader → Prop} (h : Fronts further mode r r')
    (hk : ∀ token s token' s', token'.bare = token.bare → Aligned further s s' →
      Mirrors lost (k token) s (k' token') s' post) :
    Mirrors lost
      (peek mode >>= fun token =>
        if (!token.isPunct mark) = true then fail (error token) >>= fun (_ : PUnit) =>
          advance mode >>= fun _ => k token
        else advance mode >>= fun _ => k token) r
      (peek mode >>= fun token =>
        if (!token.isPunct mark) = true then fail (error' token) >>= fun (_ : PUnit) =>
          advance mode >>= fun _ => k' token
        else advance mode >>= fun _ => k' token) r' post := by
  refine meet_mirrors h ?_ ?_
  · intro token s hend
    rw [hend.isPunct mark]
    exact ⟨_, _, rfl⟩
  · intro token s token' s' hmeets
    refine mirrors_ite (by rw [hmeets.isPunct]) (fun _ => mirrors_of_error rfl) fun hmark => ?_
    have hmark : token.isPunct mark = true := by simpa using hmark
    have hkind := Token.kind_ne_eof_of_isPunct hmark
    refine (hmeets.advance hkind).bind ?_
    rintro _ u _ u' ⟨_, _, hconsumed⟩
    exact hk token u token' u' hmeets.bare hconsumed

/-- A reference to a connection is read on both sides. -/
theorem reference_mirrors (h : Fronts further .declaration r r') :
    Mirrors (Lost further) reference r reference r'
      (fun reference s reference' s' => reference'.bare = reference.bare ∧
        Reaches further s s') := by
  unfold reference
  refine (expect_mirrors h '(').bind ?_
  rintro opening r₁ opening' r₁' ⟨_, h₁⟩
  refine (expression_mirrors h₁).bind ?_
  rintro expression r₂ expression' r₂' ⟨hexpression, h₂⟩
  refine consume_mirrors (.reaches h₂) fun _ r₃ _ r₃' _ h₃ => ?_
  refine consume_mirrors (.reaches (.aligned h₃)) fun _ r₄ _ r₄' _ h₄ => ?_
  refine meet_mirrors (.reaches (.aligned h₄)) ?_ ?_
  · rintro token s (hkind | hkind) <;> rw [hkind] <;> exact ⟨_, _, rfl⟩
  intro index r₅ index' r₅' hmeets
  refine mirrors_ite (by rw [hmeets.kind, hmeets.text]) (fun _ => mirrors_of_error rfl)
    fun hdigits => ?_
  have hkind : index.kind ≠ .eof := by simp [(Token.of_not_badIndex hdigits).1]
  refine (hmeets.advance hkind).bind ?_
  rintro _ r₆ _ r₆' ⟨_, _, h₆⟩
  refine consume_mirrors (.reaches (.aligned h₆)) fun closing r₇ closing' r₇' _ h₇ => ?_
  refine (fields_mirrors (.aligned h₇)).bind ?_
  rintro fields r₈ fields' r₈' ⟨hfields, h₈⟩
  rw [hmeets.text]
  split
  · exact mirrors_of_error rfl
  · exact mirrors_pure ⟨by simp [Reference.bare, hexpression, Identifier.bareAll_eq_map, hfields], h₈⟩

/-! ## Labels -/

/-- Whether something is ahead, or nothing further follows the end. -/
def Goes (further : Option Text) (r : Reader) : Prop :=
  further ≠ none → r.text ≠ []

/-- A mark that may stand ahead in a list, where the first reader is not at the end without it. -/
theorem mark_mirrors (h : Aligned further r r') (mark : Char) {mode : Mode} {token : Token}
    {s : Reader} (hpeek : peek mode r = .ok token s)
    (hgoes : token.isPunct mark = false → Goes further s) :
    Ends (peek mode) r'
      (fun token' s' => token'.isPunct mark = token.isPunct mark ∧ Aligned further s s' ∧
        (token.isPunct mark = true → Meets further mode token s token' s'))
      (fun _ _ => False) := by
  have hsees := (peek_spec h.sound mode).ok hpeek
  have hlast : further ≠ none → token.kind ≠ .eof := by
    intro hsome heof
    have hmark := Token.IsEnd.isPunct (.inl heof) mark
    exact hgoes hmark hsome ((hsees.shows.eof_iff hsees.sound).mp heof)
  refine (h.peek hsees hlast).imp ?_
  rintro token' s' ⟨hshows', hlook⟩
  cases hlook with
  | same haligned hkind htext =>
      have hmeets : Meets further mode token s token' s' :=
        ⟨haligned.beside, hsees.shows, hshows', hkind, htext⟩
      exact ⟨hmeets.isPunct mark, haligned, fun _ => hmeets⟩
  | last hfurther haligned ends terminator after =>
      have hmark := Token.IsEnd.isPunct (ends.imp (fun h => h.1) fun h => h.1) mark
      refine ⟨?_, haligned, fun h => absurd h (by simp [hmark])⟩
      rw [hmark, Token.IsEnd.isPunct (.inr terminator)]
  | crossed hfurther crossed eof => exact absurd eof (hlast (by simp [hfurther]))

/-- A constraint is read on both sides, unless the first reader is at the end after it. -/
theorem constraintName_mirrors (h : Aligned further r r') (others others' : List Text)
    {name : Text} {s : Reader} (hrun : constraintName others r = .ok name s)
    (hgoes : Goes further s) :
    Ends (constraintName others') r' (fun name' s' => name' = name ∧ Aligned further s s')
      (fun _ _ => False) := by
  unfold constraintName at hrun ⊢
  obtain ⟨token, r₁, hpeek, hrun⟩ := bind_eq_ok.mp hrun
  by_cases hident : token.kind = .ident
  · rw [if_neg (by simp [hident])] at hrun
    have hend : ¬ token.IsEnd := by simp [Token.IsEnd, hident]
    refine ends_bind.mpr ((h.meet hpeek hend).imp ?_)
    intro token' r₁' hmeets
    rw [if_neg (by simp [hmeets.kind, hident])]
    obtain ⟨_, r₂, hadvance, hrun⟩ := bind_eq_ok.mp hrun
    have hkind : token.kind ≠ .eof := by simp [hident]
    have hmirrors : Mirrors False _ _ (advance .constraints) _ _ := hmeets.advance hkind
    refine ends_bind.mpr ((hmirrors _ _ hadvance).imp ?_)
    rintro _ r₂' ⟨_, _, h₂⟩
    obtain ⟨next, r₃, hnext, hrun⟩ := bind_eq_ok.mp hrun
    have hplain : next.isPunct ';' = false → Goes further r₃ := by
      intro hmark
      rw [if_neg (by simp [hmark])] at hrun
      cases hrun
      exact hgoes
    refine ends_bind.mpr ((mark_mirrors h₂ ';' hnext hplain).imp ?_)
    rintro next' r₃' ⟨hmark, h₃, hmeets₃⟩
    rw [hmark]
    by_cases hsemicolon : next.isPunct ';' = true
    · rw [if_pos hsemicolon] at hrun ⊢
      obtain ⟨_, r₄, hadvance, hrun⟩ := bind_eq_ok.mp hrun
      have hmirrors : Mirrors False _ _ (advance .constraints) _ _ :=
        (hmeets₃ hsemicolon).advance (Token.kind_ne_eof_of_isPunct hsemicolon)
      refine ends_bind.mpr ((hmirrors _ _ hadvance).imp ?_)
      rintro _ r₄' ⟨_, _, h₄⟩
      cases hrun
      exact ⟨hmeets.text, h₄⟩
    · rw [if_neg hsemicolon] at hrun ⊢
      cases hrun
      exact ⟨hmeets.text, h₃⟩
  · rw [if_pos (by simpa using hident)] at hrun
    cases hrun

/-- No constraint follows the end of the source. -/
theorem constraintName_goes {others : List Text} {name : Text} {s : Reader} (hr : r.Sound)
    (hrun : constraintName others r = .ok name s) : r.text ≠ [] := by
  intro hnil
  unfold constraintName at hrun
  obtain ⟨token, r₁, hpeek, hrun⟩ := bind_eq_ok.mp hrun
  obtain ⟨hkind, _⟩ := ((peek_spec hr .constraints).ok hpeek).of_nil hnil
  rw [if_pos (by simp [hkind])] at hrun
  cases hrun

/-- Where a further constraint or the closing bracket is found, something is ahead. -/
theorem constraintStep_goes {found : Option Text} {s : Reader} (hr : r.Sound)
    (hrun : constraintStep r = .ok found s) : Goes further r := by
  intro _ hnil
  obtain ⟨token, r₁, hpeek, hrun⟩ := bind_eq_ok.mp hrun
  have hsees := (peek_spec hr .constraints).ok hpeek
  obtain ⟨hkind, htext⟩ := hsees.of_nil hnil
  rw [if_neg (by simp [Token.IsEnd.isPunct (.inl hkind)])] at hrun
  obtain ⟨name, r₂, hname, _⟩ := bind_eq_ok.mp hrun
  exact constraintName_goes hsees.sound hname htext

/-- Both readers have a token to consume ahead at the same place. -/
def Closes (further : Option Text) (mode : Mode) (r r' : Reader) : Prop :=
  ∃ token token', token.kind ≠ .eof ∧ Meets further mode token r token' r'

/-- A further constraint is read on both sides, or both readers have the closing bracket ahead. -/
theorem constraintStep_mirrors (h : Aligned further r r') {found : Option Text} {s : Reader}
    (hrun : constraintStep r = .ok found s) (hgoes : found ≠ none → Goes further s) :
    Ends constraintStep r'
      (fun found' s' => found'.map id = found.map id ∧
        (found = none → Closes further .constraints s s') ∧ (found ≠ none → Aligned further s s'))
      (fun _ _ => False) := by
  unfold constraintStep at hrun ⊢
  obtain ⟨token, r₁, hpeek, hrun⟩ := bind_eq_ok.mp hrun
  have hsees := (peek_spec h.sound .constraints).ok hpeek
  have hplain : token.isPunct ']' = false → Goes further r₁ := by
    intro hmark _
    rw [if_neg (by simp [hmark])] at hrun
    obtain ⟨name, r₂, hname, _⟩ := bind_eq_ok.mp hrun
    exact constraintName_goes hsees.sound hname
  refine ends_bind.mpr ((mark_mirrors h ']' hpeek hplain).imp ?_)
  rintro token' r₁' ⟨hmark, h₁, hmeets⟩
  rw [hmark]
  by_cases hclosing : token.isPunct ']' = true
  · rw [if_pos hclosing] at hrun ⊢
    cases hrun
    exact ⟨rfl, fun _ => ⟨token, token', Token.kind_ne_eof_of_isPunct hclosing, hmeets hclosing⟩,
      fun h => absurd rfl h⟩
  · rw [if_neg hclosing] at hrun ⊢
    obtain ⟨name, r₂, hname, hrun⟩ := bind_eq_ok.mp hrun
    cases hrun
    refine ends_bind.mpr ((constraintName_mirrors h₁ _ _ hname (hgoes (by simp))).imp ?_)
    rintro name' r₂' ⟨hsame, h₂⟩
    exact ⟨by simp [hsame], by simp, fun _ => h₂⟩

/-- Constraints are read on both sides up to their closing bracket, whatever follows. -/
theorem constraints_mirrors {lost : Prop} (h : Fronts further .label r r') :
    Mirrors lost constraints r constraints r'
      (fun label s label' s' => label'.bare = label.bare ∧ Aligned further s s') := by
  rw [constraints_eq]
  refine (expect_mirrors h '[').bind ?_
  rintro opening r₁ opening' r₁' ⟨_, h₁⟩ label s hrun
  obtain ⟨first, r₂, hfirst, hrun⟩ := bind_eq_ok.mp hrun
  obtain ⟨others, r₃, hothers, _⟩ := bind_eq_ok.mp hrun
  have hsound := ((constraintName_spec h₁.sound []).ok hfirst).1.sound
  have hgoes : Goes further r₂ := by
    obtain ⟨found, u, hstep, _⟩ := bind_eq_ok.mp hothers
    exact constraintStep_goes hsound hstep
  refine ends_bind.mpr ((constraintName_mirrors h₁ _ _ hfirst hgoes).mono ?_
    fun _ _ hfalse => hfalse.elim)
  rintro first' r₂' ⟨rfl, h₂⟩
  have hrepeats : Repeats lost constraintStep id (Goes further) (Aligned further)
      (Closes further .constraints) := by
    refine ⟨fun _ _ h => ⟨h.sound, h.sound'⟩, ?_, fun _ _ _ => constraintStep_goes, ?_⟩
    · intro r hr
      exact (constraintStep_spec hr).imp fun _ _ h a ha => (h.2 a ha).1
    · intro r r' h found s hstep hgoes
      exact (constraintStep_mirrors h hstep hgoes).mono (fun _ _ h => h) fun _ _ hfalse => hfalse.elim
  have hrest : Mirrors lost
      (many constraintStep >>= fun others => advance .constraints >>= fun closing =>
        pure (Label.constraints (first' :: others) (opening.span.cover closing.span))) r₂
      (many constraintStep >>= fun others => advance .constraints >>= fun closing =>
        pure (Label.constraints (first' :: others) (opening'.span.cover closing.span))) r₂'
      (fun label s label' s' => label'.bare = label.bare ∧ Aligned further s s') := by
    refine (hrepeats.many h₂).bind ?_
    rintro others u others' u' ⟨hsame, token, token', hkind, hmeets⟩
    rw [List.map_id, List.map_id] at hsame
    subst hsame
    refine (hmeets.advance hkind).bind ?_
    rintro closing v closing' v' ⟨_, _, hv⟩
    exact mirrors_pure ⟨rfl, hv⟩
  exact hrest label s hrun

/-- The value of a numeral does not depend on where it is read. -/
theorem numberValue_mirrors {lost : Prop} (raw : Text) (h : Aligned further r r') :
    Mirrors lost (numberValue raw) r (numberValue raw) r'
      (fun value s value' s' => value' = value ∧ Aligned further s s') := by
  intro value s hrun
  obtain ⟨rfl, hvalue, _⟩ := (numberValue_spec raw r).ok hrun
  exact (ends_of_ok (hvalue r')).mpr ⟨rfl, h⟩

/-- A label that is one token is consumed on both sides. -/
theorem labelToken_mirrors {lost : Prop} {token token' : Token} {label label' : Label}
    (hmeets : Meets further .label token r token' r') (hkind : token.kind ≠ .eof)
    (hlabel : label'.bare = label.bare) :
    Mirrors lost
      (advance .label >>= fun _ => (pure (some label) : Parser (Option Label))) r
      (advance .label >>= fun _ => (pure (some label') : Parser (Option Label))) r'
      (fun found s found' s' => found'.map (·.bare) = found.map (·.bare) ∧
        Aligned further s s') := by
  refine (hmeets.advance hkind).bind ?_
  rintro _ u _ u' ⟨_, _, hu⟩
  exact mirrors_pure ⟨by simp [hlabel], hu⟩

/-- Both readers read the label that the token ahead begins, if it begins one. -/
theorem label_mirrors {lost : Prop} {token token' : Token} (h : Aligned further r r')
    (hmeets : Meets further .label token r token' r') :
    Mirrors lost label r label r'
      (fun found s found' s' => found'.map (·.bare) = found.map (·.bare) ∧
        Aligned further s s') := by
  unfold label
  refine hmeets.peek.bind ?_
  rintro _ _ _ _ ⟨⟨rfl, rfl⟩, rfl, rfl⟩
  rw [hmeets.kind, hmeets.text]
  split
  · next hkind =>
      refine (hmeets.advance (by simp [hkind])).bind ?_
      rintro _ u _ u' ⟨_, _, hu⟩
      split
      · exact mirrors_pure ⟨rfl, hu⟩
      · exact mirrors_of_error rfl
      · exact mirrors_pure ⟨rfl, hu⟩
  · next hkind =>
      refine (hmeets.advance (by simp [hkind])).bind ?_
      rintro _ u _ u' ⟨_, _, hu⟩
      refine (numberValue_mirrors _ hu).bind ?_
      rintro value v value' v' ⟨rfl, hv⟩
      exact mirrors_pure ⟨rfl, hv⟩
  · next hkind => exact labelToken_mirrors hmeets (by simp [hkind]) rfl
  · next hkind => exact labelToken_mirrors hmeets (by simp [hkind]) rfl
  · next hkind => exact labelToken_mirrors hmeets (by simp [hkind]) rfl
  · refine mirrors_ite (by rw [hmeets.isPunct]) (fun _ => ?_) fun _ => mirrors_pure ⟨rfl, h⟩
    refine (constraints_mirrors (.meets hmeets)).bind ?_
    rintro found u found' u' ⟨hfound, hu⟩
    exact mirrors_pure ⟨by simp [hfound], hu⟩

/-! ## Methods -/

namespace Segment

/-- The segment without its spans. -/
def plain : Segment → Segment
  | .bare name => .bare name.bare
  | .typed name type => .typed name.bare type.bare

/-- Of an argument without a type its name is left. -/
@[simp] theorem plain_bare (name : Token) : (Segment.bare name).plain = .bare name.bare := rfl

/-- Of an argument with a type its name and its type are left. -/
@[simp] theorem plain_typed (name type : Token) :
    (Segment.typed name type).plain = .typed name.bare type.bare := rfl

/-- An argument without a type was one before its spans were taken. -/
theorem plain_eq_bare {segment : Segment} {name : Token} :
    segment.plain = .bare name.bare ↔ ∃ name', segment = .bare name' ∧ name'.bare = name.bare := by
  cases segment <;> simp

/-- An argument with a type was one before its spans were taken. -/
theorem plain_eq_typed {segment : Segment} {name type : Token} :
    segment.plain = .typed name.bare type.bare ↔
      ∃ name' type', segment = .typed name' type' ∧ name'.bare = name.bare ∧
        type'.bare = type.bare := by
  constructor
  · intro h
    cases segment with
    | bare => cases h
    | typed name' type' => exact ⟨name', type', rfl, Segment.typed.inj h⟩
  · rintro ⟨name', type', rfl, hname, htype⟩
    rw [plain_typed, hname, htype]

theorem name_plain (segment : Segment) : segment.plain.name = segment.name.bare := by
  cases segment <;> rfl

theorem isBare_plain (segment : Segment) : segment.plain.isBare = segment.isBare := by
  cases segment <;> rfl

/-- What depends on the plain segments only is the same for the same segments. -/
theorem map_eq_of_plain {α : Type} {f : Segment → α} {segments segments' : List Segment}
    (hf : ∀ segment, f segment.plain = f segment) (h : segments'.map plain = segments.map plain) :
    segments'.map f = segments.map f := by
  have hplain : ∀ segments : List Segment, segments.map f = (segments.map plain).map f := by
    intro segments
    rw [List.map_map]
    exact List.map_congr_left fun segment _ => (hf segment).symm
  rw [hplain, h, ← hplain]

/-- The same words are the same segment. -/
theorem ofWords_mirrors {opening : Span} (opening' : Span) {words words' : List Token} {segment : Segment}
    (hwords : words'.map (·.bare) = words.map (·.bare)) (h : ofWords opening words = .ok segment) :
    ∃ segment', ofWords opening' words' = .ok segment' ∧ segment'.plain = segment.plain := by
  obtain ⟨hname, ⟨name, rfl, rfl⟩ | ⟨name, type, rfl, rfl⟩⟩ := ofWords_eq_ok.mp h
  · obtain ⟨name', rfl, hname'⟩ : ∃ name', words' = [name'] ∧ name'.bare = name.bare := by
      simpa [List.map_eq_cons_iff] using hwords
    have htext := (Token.bare_eq_iff.mp hname').2
    refine ⟨.bare name', ofWords_eq_ok.mpr ⟨?_, .inl ⟨name', rfl, rfl⟩⟩, by simp [hname']⟩
    simpa [Segment.name, htext] using hname
  · obtain ⟨name', _, rfl, hname', type', rfl, htype'⟩ : ∃ name' others, words' = name' :: others ∧
        name'.bare = name.bare ∧ ∃ type', others = [type'] ∧ type'.bare = type.bare := by
      simpa [List.map_eq_cons_iff] using hwords
    have htext := (Token.bare_eq_iff.mp hname').2
    refine ⟨.typed name' type', ofWords_eq_ok.mpr ⟨?_, .inr ⟨name', type', rfl, rfl⟩⟩,
      by simp [hname', htype']⟩
    simpa [Segment.name, htext] using hname

/-- The same segments have the same type ahead. -/
theorem typeAhead_mirrors {segments segments' : List Segment}
    (h : segments'.map plain = segments.map plain) :
    (typeAhead segments').map (·.text) = (typeAhead segments).map (·.text) := by
  induction segments generalizing segments' with
  | nil =>
      obtain rfl := List.map_eq_nil_iff.mp h
      rfl
  | cons segment segments ih =>
      obtain ⟨segment', others, rfl, hsegment, hothers⟩ := List.map_eq_cons_iff.mp h
      cases segment with
      | bare name =>
          obtain ⟨name', rfl, _⟩ := plain_eq_bare.mp hsegment
          have hlater := ih hothers
          exact hlater
      | typed name type =>
          obtain ⟨name', type', rfl, _, htype⟩ := plain_eq_typed.mp hsegment
          simp [typeAhead, (Token.bare_eq_iff.mp htype).2]

/-- The same segments share their types in the same way. -/
theorem shareTypes_mirrors {segments segments' : List Segment} {arguments : List Argument}
    (hsegments : segments'.map plain = segments.map plain)
    (h : shareTypes segments = .ok arguments) :
    ∃ arguments', shareTypes segments' = .ok arguments' ∧
      arguments'.map (·.bare) = arguments.map (·.bare) := by
  induction segments generalizing segments' arguments with
  | nil =>
      obtain rfl := List.map_eq_nil_iff.mp hsegments
      obtain rfl := Except.ok.inj h
      exact ⟨[], rfl, rfl⟩
  | cons segment segments ih =>
      obtain ⟨segment', others', rfl, hsegment, hothers⟩ := List.map_eq_cons_iff.mp hsegments
      cases segment with
      | bare name =>
          obtain ⟨name', rfl, hname⟩ := plain_eq_bare.mp hsegment
          have htypes := typeAhead_mirrors hothers
          simp only [shareTypes] at h ⊢
          cases htype : typeAhead segments with
          | none =>
              rw [htype] at h
              cases h
          | some type =>
              rw [htype] at h htypes
              obtain ⟨type', htype', hsame⟩ := Option.map_eq_some_iff.mp htypes
              obtain ⟨others, hshare, rfl⟩ := except_map_eq_ok.mp h
              obtain ⟨arguments', harguments', hbare⟩ := ih hothers hshare
              rw [htype', harguments']
              refine ⟨_, rfl, ?_⟩
              simp only [List.map_cons, hbare]
              simp [Argument.bare, (Token.bare_eq_iff.mp hname).2, hsame]
      | typed name type =>
          obtain ⟨name', type', rfl, hname, htype⟩ := plain_eq_typed.mp hsegment
          simp only [shareTypes] at h ⊢
          obtain ⟨others, hshare, rfl⟩ := except_map_eq_ok.mp h
          obtain ⟨arguments', harguments', hbare⟩ := ih hothers hshare
          rw [harguments']
          refine ⟨_, rfl, ?_⟩
          simp only [List.map_cons, hbare]
          simp [Argument.bare, (Token.bare_eq_iff.mp hname).2, (Token.bare_eq_iff.mp htype).2]

end Segment

/-- Commas stand at the same places of the same words. -/
theorem splitAtCommas_mirrors {words words' : List Token}
    (h : words'.map (·.bare) = words.map (·.bare)) :
    (splitAtCommas words').map (·.map (·.bare)) = (splitAtCommas words).map (·.map (·.bare)) := by
  induction words generalizing words' with
  | nil =>
      obtain rfl := List.map_eq_nil_iff.mp h
      rfl
  | cons word words ih =>
      obtain ⟨word', others, rfl, hword, hothers⟩ := List.map_eq_cons_iff.mp h
      have hlater := ih hothers
      obtain ⟨hkind, htext⟩ := Token.bare_eq_iff.mp hword
      have hcomma : word'.isPunct ',' = word.isPunct ',' := by
        simp only [Token.isPunct, Token.isPunctOf, hkind, htext]
      unfold splitAtCommas
      rw [hcomma]
      split
      · simp [hlater]
      · cases hsplit : splitAtCommas words with
        | nil =>
            rw [hsplit] at hlater
            rw [List.map_eq_nil_iff.mp hlater]
            simp [hword]
        | cons first further =>
            rw [hsplit] at hlater
            obtain ⟨first', further', hsplit', hfirst, hfurther⟩ := List.map_eq_cons_iff.mp hlater
            rw [hsplit']
            simp [hword, hfirst, hfurther]

/-- A comma ends the same lists of words. -/
theorem dropTrailingComma_mirrors {segments segments' : List (List Token)}
    (h : segments'.map (·.map (·.bare)) = segments.map (·.map (·.bare))) :
    (dropTrailingComma segments').map (·.map (·.bare)) =
      (dropTrailingComma segments).map (·.map (·.bare)) := by
  have hlength : segments'.length = segments.length := by
    simpa using congrArg List.length h
  have hempty : ∀ last : Option (List Token),
      last = some [] ↔ last.map (·.map (·.bare)) = some [] := by
    intro last
    cases last <;> simp
  have hlast : segments'.getLast? = some [] ↔ segments.getLast? = some [] := by
    rw [hempty, hempty segments.getLast?, ← List.getLast?_map, ← List.getLast?_map, h]
  unfold dropTrailingComma
  rw [hlength]
  by_cases hdrop : 1 < segments.length ∧ segments.getLast? = some []
  · rw [if_pos hdrop, if_pos (by rwa [hlast])]
    rw [List.map_dropLast, List.map_dropLast, h]
  · rw [if_neg hdrop, if_neg (by rwa [hlast])]
    exact h

/-- The same words are the same arguments. -/
theorem resolveArguments_mirrors {opening : Span} (opening' : Span) {words words' : List Token}
    {arguments : List Argument} (hwords : words'.map (·.bare) = words.map (·.bare))
    (h : resolveArguments opening (splitAtCommas words) = .ok arguments) :
    ∃ arguments', resolveArguments opening' (splitAtCommas words') = .ok arguments' ∧
      arguments'.map (·.bare) = arguments.map (·.bare) := by
  have hsplit := splitAtCommas_mirrors hwords
  have hnone : splitAtCommas words' = [[]] ↔ splitAtCommas words = [[]] := by
    have hempty : ∀ lists : List (List Token),
        lists = [[]] ↔ lists.map (·.map (·.bare)) = [[]] := by
      intro lists
      simp [List.map_eq_cons_iff]
    rw [hempty, hempty (splitAtCommas words), hsplit]
  obtain ⟨hempty, rfl⟩ | ⟨hfilled, segments, hsegments, harguments⟩ := resolveArguments_cases h
  · exact ⟨[], by rw [resolveArguments, if_pos (hnone.mpr hempty)], rfl⟩
  · obtain ⟨segments', hsegments', hplain⟩ := mapM_mirrors
      (fun _ _ _ => Segment.ofWords_mirrors opening')
      (dropTrailingComma_mirrors hsplit) hsegments
    have hbare : segments'.all (·.isBare) = segments.all (·.isBare) := by
      have := congrArg (·.all id) (Segment.map_eq_of_plain Segment.isBare_plain hplain)
      simpa [List.all_map] using this
    rw [resolveArguments_of_segments (mt hnone.mp hfilled) hsegments', hbare]
    obtain ⟨hall, rfl⟩ | ⟨hall, hshared⟩ := harguments
    · refine ⟨_, if_pos hall, ?_⟩
      rw [List.map_map, List.map_map]
      exact Segment.map_eq_of_plain
        (fun segment => by simp [Segment.name_plain, Argument.bare, Token.bare]) hplain
    · rw [if_neg hall]
      exact Segment.shareTypes_mirrors hplain hshared

/-- A word of a list is read on both sides, or both readers have the closing parenthesis ahead. -/
theorem wordStep_mirrors {lost : Prop} (h : Aligned further r r') :
    Mirrors lost wordStep r wordStep r'
      (fun found s found' s' => found'.map (·.bare) = found.map (·.bare) ∧
        (found = none → Closes further .arguments s s') ∧
        (found ≠ none → Aligned further s s')) := by
  unfold wordStep
  refine meet_mirrors (.reaches (.aligned h)) ?_ ?_
  · intro token s hend
    have hident : token.kind ≠ .ident := by
      rcases hend with hkind | hkind <;> simp [hkind]
    rw [if_neg (by simp [hend.isPunct]), if_neg (by simp [hend.isPunct, hident])]
    exact ⟨_, _, rfl⟩
  · intro token s token' s' hmeets
    refine mirrors_ite (by rw [hmeets.isPunct]) (fun hclosing => ?_) fun _ => ?_
    · exact mirrors_pure ⟨rfl, fun _ => ⟨token, token',
        Token.kind_ne_eof_of_isPunct hclosing, hmeets⟩, fun h => absurd rfl h⟩
    · refine mirrors_ite (by rw [hmeets.isPunct, hmeets.kind]) (fun hword => ?_)
        fun _ => mirrors_of_error rfl
      have hkind : token.kind ≠ .eof := by
        intro heof
        simp [heof, Token.IsEnd.isPunct (.inl heof)] at hword
      refine (hmeets.advance hkind).bind ?_
      rintro _ u _ u' ⟨rfl, rfl, hu⟩
      exact mirrors_pure ⟨by simp [hmeets.bare], by simp, fun _ => hu⟩

/-- A list of arguments is read on both sides up to its closing parenthesis, whatever follows. -/
theorem argumentList_mirrors {lost : Prop} (h : Fronts further .arguments r r') :
    Mirrors lost argumentList r argumentList r'
      (fun found s found' s' => found'.1.map (·.bare) = found.1.map (·.bare) ∧
        Aligned further s s') := by
  rw [argumentList_eq]
  refine (expect_mirrors h '(').bind ?_
  rintro opening r₁ opening' r₁' ⟨_, h₁⟩
  have hrepeats : Repeats lost wordStep (·.bare) (fun _ => True) (Aligned further)
      (Closes further .arguments) := by
    refine ⟨fun _ _ h => ⟨h.sound, h.sound'⟩, ?_, fun _ _ _ _ _ => trivial, ?_⟩
    · intro r hr
      exact (wordStep_spec hr).imp fun _ _ h a ha => (h.2 a ha).1
    · intro r r' h found s hstep _
      exact wordStep_mirrors h found s hstep
  refine (hrepeats.many h₁).bind ?_
  rintro words r₂ words' r₂' ⟨hwords, token, token', hkind, hmeets⟩
  refine (hmeets.advance hkind).bind ?_
  rintro closing r₃ closing' r₃' ⟨_, _, h₃⟩
  cases harguments : resolveArguments opening.span (splitAtCommas words) with
  | error error => exact mirrors_of_error rfl
  | ok arguments =>
      obtain ⟨arguments', harguments', hsame⟩ :=
        resolveArguments_mirrors opening'.span hwords harguments
      rw [harguments']
      exact mirrors_pure ⟨hsame, h₃⟩

/-- A method is read on both sides, with what it returns. -/
theorem methodFrom_mirrors {name name' : Identifier} (hname : name'.bare = name.bare)
    (h : Reaches further r r') :
    Mirrors (Lost further) (methodFrom name) r (methodFrom name') r'
      (fun method s method' s' => method'.bare = method.bare ∧ Reaches further s s') := by
  unfold methodFrom
  refine (argumentList_mirrors (.reaches h)).bind ?_
  rintro ⟨arguments, closing⟩ r₁ ⟨arguments', closing'⟩ r₁' ⟨harguments, h₁⟩
  refine (peekSameLine_mirrors (.aligned h₁) (.inl rfl)).bind ?_
  rintro seen r₂ seen' r₂' hseen
  refine mirrors_mark hseen (fun token token' _ _ hkind hmeets => ?_)
    (mirrors_pure ⟨by simp_all [Method.bare], hseen.reaches⟩)
  refine (hmeets.advance hkind).bind ?_
  rintro _ r₃ _ r₃' ⟨_, _, h₃⟩
  refine (argumentList_mirrors (.reaches (.aligned h₃))).bind ?_
  rintro ⟨returns, closing⟩ r₄ ⟨returns', closing'⟩ r₄' ⟨hreturns, h₄⟩
  exact mirrors_pure ⟨by simp_all [Method.bare], .aligned h₄⟩

/-! ## Statements -/

/-- The reader has entered the text: it is at the front, it looks at the first token, or it has
consumed that token, which ended a line.  The comments it passed in the text come after the ones
before. -/
inductive Enters (t : Text) (before : List Item) (r : Reader) : Prop
  | here (sound : r.Sound) (text : r.text = t) (remarks : r.remarks = before)
  | looked {token : Token} {later : List Item} {ends : Bool} {lexeme : Lexeme} (sound : r.Sound)
      (shows : r.Shows .declaration token)
      (finds : Mode.declaration.Finds t later ends lexeme r.text)
      (remarks : r.remarks = before ++ later)
  | ended {later : List Item} {ends : Bool} {n : Nat} {v : Text} (sound : r.Sound)
      (finds : Mode.declaration.Finds t later ends ⟨.terminator, n⟩ v) (text : r.text = v.drop n)
      (remarks : r.remarks = before ++ later)

/-- The readers stand at the same place, or the first is at the end and the other has entered the
further text. -/
inductive Lands (further : Option Text) (r r' : Reader) : Prop
  | aligned (h : Aligned further r r')
  | entered {t : Text} (hfurther : further = some t) (sound : r.Sound) (text : r.text = [])
      (h : Enters t r.remarks r')

/-- The end of a statement at the token ahead. -/
def finishAt (wanted : Text) (others : List Text) (token : Token) : Parser Unit := do
  if token.kind = .terminator then
    let _ ← advance .declaration
  else if token.kind ≠ .eof && !token.isPunct '\x7d' && !(← get).lineBreak then
    fail (.unexpected wanted others token)

theorem finish_eq (wanted : Text) (others : List Text) :
    finish wanted others = (peek .declaration >>= finishAt wanted others) := rfl

/-- The end of a block at the token ahead. -/
def finishBlockAt (token : Token) : Parser Unit := do
  if token.kind = .terminator then
    let _ ← advance .declaration

theorem finishBlock_eq : finishBlock = (peek .declaration >>= finishBlockAt) := rfl

/-- What ends a statement or a block at a token: it consumes a terminator, and needs none at the
end of the source and on a line of its own. -/
structure Ending (finish : Token → Parser Unit) : Prop where
  terminator : ∀ {r : Reader} {token : Token}, r.Shows .declaration token →
    token.kind = .terminator → finish token r = .ok () r.consumed
  pass : ∀ {r : Reader} {token : Token}, token.kind ≠ .terminator →
    (token.kind = .eof ∨ r.lineBreak = true) → finish token r = .ok () r

/-- The end of a statement consumes a terminator, and passes where none is needed. -/
theorem ending_finishAt (wanted : Text) (others : List Text) : Ending (finishAt wanted others) where
  terminator h hkind := by
    unfold finishAt
    rw [if_pos hkind, bind_ok (h.advance_eq (by simp [hkind]))]
    rfl
  pass hkind hpass := by
    unfold finishAt
    rw [if_neg hkind, get_bind, if_neg]
    · rfl
    · rcases hpass with heof | hbreak
      · simp [heof]
      · simp [hbreak]

/-- The end of a block consumes a terminator, and passes where none is needed. -/
theorem ending_finishBlockAt : Ending finishBlockAt where
  terminator h hkind := by
    unfold finishBlockAt
    rw [if_pos hkind, bind_ok (h.advance_eq (by simp [hkind]))]
    rfl
  pass hkind _ := by
    unfold finishBlockAt
    rw [if_neg hkind]
    rfl

/-- What ends in the first source ends in the longer one.  Where it ends with the first source the
other reader enters the further text. -/
theorem ending_mirrors {finish finish' : Token → Parser Unit} (hfinish : Ending finish)
    (hfinish' : Ending finish') (h : Reaches further r r')
    (hsame : ∀ token s token' s', Aligned further s s' →
      Meets further .declaration token s token' s' → token.kind ≠ .terminator →
      Mirrors (Lost further) (finish token) s (finish' token') s'
        (fun _ s _ s' => Lands further s s')) :
    Mirrors (Lost further) (peek .declaration >>= finish) r (peek .declaration >>= finish') r'
      (fun _ s _ s' => Lands further s s') := by
  refine (look_mirrors h (.inl rfl)).bind ?_
  rintro token s token' s' ⟨hshows, hshows', hlook⟩
  cases hlook with
  | same haligned hkind htext =>
      have hmeets : Meets further .declaration token s token' s' :=
        ⟨haligned.beside, hshows, hshows', hkind, htext⟩
      by_cases hterminator : token.kind = .terminator
      · intro _ u hrun
        rw [hfinish.terminator hshows hterminator] at hrun
        cases hrun
        exact (ends_of_ok (hfinish'.terminator hshows' (hkind.trans hterminator))).mpr
          (.aligned hmeets.consumed)
      · exact hsame _ _ _ _ haligned hmeets hterminator
  | @last t hfurther haligned ends terminator after =>
      have hhere : Enters t s.remarks s'.consumed :=
        .here haligned.sound'.consumed after haligned.remarks
      intro _ u hrun
      refine (ends_of_ok (hfinish'.terminator hshows' terminator)).mpr ?_
      rcases ends with ⟨heof, hnil⟩ | ⟨hterminator, hnil⟩
      · rw [hfinish.pass (by simp [heof]) (.inl heof)] at hrun
        cases hrun
        exact .entered hfurther haligned.sound hnil hhere
      · rw [hfinish.terminator hshows hterminator] at hrun
        cases hrun
        exact .entered hfurther haligned.sound.consumed hnil hhere
  | @crossed t hfurther crossed eof =>
      intro _ u hrun
      rw [hfinish.pass (by simp [eof]) (.inl eof)] at hrun
      cases hrun
      obtain ⟨mode, later, e, lexeme, hmode, hfinds, hremarks⟩ := crossed.finds
      have hfound := hfinds.transfer hmode (.inl rfl) (hshows'.scan crossed.sound').1
      by_cases hterminator : token'.kind = .terminator
      · refine (ends_of_ok (hfinish'.terminator hshows' hterminator)).mpr ?_
        rw [hterminator] at hfound
        refine .entered hfurther crossed.sound crossed.text
          (.ended crossed.sound'.consumed hfound ?_ hremarks)
        exact hshows'.text_consumed crossed.sound'
      · refine (ends_of_ok (hfinish'.pass hterminator (.inr crossed.lineBreak))).mpr ?_
        exact .entered hfurther crossed.sound crossed.text
          (.looked crossed.sound' hshows' hfound hremarks)

/-- A statement that ends in the first source ends in the longer one. -/
theorem finish_mirrors (h : Reaches further r r') (wanted wanted' : Text)
    (others others' : List Text) :
    Mirrors (Lost further) (finish wanted others) r (finish wanted' others') r'
      (fun _ s _ s' => Lands further s s') := by
  rw [finish_eq, finish_eq]
  refine ending_mirrors (ending_finishAt _ _) (ending_finishAt _ _) h ?_
  intro token s token' s' haligned hmeets hkind
  unfold finishAt
  rw [if_neg hkind, if_neg (by rwa [hmeets.kind])]
  have hget : Mirrors (Lost further) (get : Parser Reader) s (get : Parser Reader) s'
      (fun a u b u' => b.lineBreak = a.lineBreak ∧ u = s ∧ u' = s') :=
    mirrors_get ⟨haligned.lineBreak, rfl, rfl⟩
  refine hget.bind ?_
  rintro a _ b _ ⟨hbreak, rfl, rfl⟩
  exact mirrors_ite (by rw [hmeets.kind, hmeets.isPunct, hbreak]) (fun _ => mirrors_of_error rfl)
    fun _ => mirrors_pure (.aligned haligned)

/-- A block that ends in the first source ends in the longer one. -/
theorem finishBlock_mirrors (h : Reaches further r r') :
    Mirrors (Lost further) finishBlock r finishBlock r' (fun _ s _ s' => Lands further s s') := by
  rw [finishBlock_eq]
  refine ending_mirrors ending_finishBlockAt ending_finishBlockAt h ?_
  intro token s token' s' haligned hmeets hkind
  unfold finishBlockAt
  rw [if_neg hkind, if_neg (by rwa [hmeets.kind])]
  exact mirrors_pure (.aligned haligned)

/-- The statement without its spans. -/
def Statement.bare : Statement → Statement
  | .item read => .item read.bare
  | .opening target label brace => .opening target.bare (label.map (·.bare)) brace.bare

variable {target target' : Target}

/-- A declaration that ends without a block. -/
theorem ends_declaration_mirrors {declaration declaration' : Declaration}
    (hdeclaration : declaration'.bare = declaration.bare) (h : Reaches further r r')
    (wanted wanted' : Text) (others others' : List Text) :
    Mirrors (Lost further)
      (finish wanted others >>= fun _ => pure (Statement.item (.declaration declaration))) r
      (finish wanted' others' >>= fun _ => pure (Statement.item (.declaration declaration'))) r'
      (fun read s read' s' => read'.bare = read.bare ∧ Lands further s s') := by
  refine (finish_mirrors h _ _ _ _).bind ?_
  rintro _ s _ s' hlands
  exact mirrors_pure ⟨by simp [Statement.bare, Item.bare, hdeclaration], hlands⟩

/-- What follows a label is read on both sides: a block that opens, or the end of the statement. -/
theorem declarationAfterLabel_mirrors (htarget : target'.bare = target.bare) (colon colon' : Span)
    {label label' : Option Label} (hlabel : label'.map (·.bare) = label.map (·.bare))
    (h : Reaches further r r') :
    Mirrors (Lost further) (declarationAfterLabel target colon label) r
      (declarationAfterLabel target' colon' label') r'
      (fun read s read' s' => read'.bare = read.bare ∧ Lands further s s') := by
  unfold declarationAfterLabel
  refine (peekSameLine_mirrors h (.inr rfl)).bind ?_
  rintro seen s seen' s' hseen
  refine mirrors_mark hseen (fun token token' _ _ _ hmeets => ?_) ?_
  · refine (expect_mirrors (.meets hmeets) '\x7b').bind ?_
    rintro brace u brace' u' ⟨hbrace, hu⟩
    exact mirrors_pure ⟨by simp [Statement.bare, htarget, hlabel, hbrace], .aligned hu⟩
  · cases label with
    | none =>
        obtain rfl : label' = none := by simpa using hlabel
        exact ends_declaration_mirrors (by simp [Declaration.bare, htarget]) hseen.reaches _ _ _ _
    | some label =>
        obtain ⟨label', rfl, hsame⟩ : ∃ found, label' = some found ∧ found.bare = label.bare := by
          simpa using hlabel
        exact ends_declaration_mirrors (by simp [Declaration.bare, htarget, hsame]) hseen.reaches
          _ _ _ _

/-- The rest of a declaration after its target, a colon, and what is seen on the line. -/
def declarationSeen (target : Target) (colon : Span) : Option Token → Parser Statement
  | none => do
    finish "connection".toList ["':'".toList, lineEnd]
    return .item (.declaration ⟨target, true, none, none, target.span.cover colon⟩)
  | some token =>
    if token.kind = .importRef then do
      let _ ← advance .label
      finish lineEnd []
      return .item
        (.declaration ⟨target, true, none, some (importOf token), target.span.cover token.span⟩)
    else label >>= declarationAfterLabel target colon

theorem declarationAfterColon_eq (target : Target) (colon : Span) :
    declarationAfterColon target colon =
      (peekSameLine .label >>= declarationSeen target colon) := rfl

/-- Where nothing is seen that a label could begin with, the declaration ends. -/
theorem declarationSeen_of_isEnd (target : Target) (colon : Span) {seen : Option Token}
    (h : ∀ token, seen = some token → token.IsEnd ∧ r.Shows .label token) :
    ∃ wanted others, declarationSeen target colon seen r =
      (finish wanted others >>= fun _ => pure (Statement.item
        (.declaration ⟨target, true, none, none, target.span.cover colon⟩))) r := by
  cases seen with
  | none => exact ⟨_, _, rfl⟩
  | some token =>
      obtain ⟨hend, hshows⟩ := h token rfl
      have himport : token.kind ≠ .importRef := by
        rcases hend with hkind | hkind <;> simp [hkind]
      have hlabel : label r = .ok none r := by
        unfold label
        rw [bind_ok hshows.peek_eq]
        have hmark := hend.isPunct '['
        rcases hend with hkind | hkind <;> simp only [hkind, hmark] <;> rfl
      have hseen : ∃ seen, peekSameLine .label r = .ok seen r ∧ isMark seen '\x7b' = false := by
        unfold peekSameLine
        rw [bind_ok hshows.peek_eq]
        refine ⟨if r.lineBreak then none else some token, rfl, ?_⟩
        split
        · rfl
        · exact hend.isPunct _
      obtain ⟨seen, hseen, hmark⟩ := hseen
      refine ⟨"label".toList, [brace, lineEnd], ?_⟩
      simp only [declarationSeen]
      rw [if_neg himport, bind_ok hlabel]
      unfold declarationAfterLabel
      rw [bind_ok hseen, if_neg (by simp [hmark])]

/-- What follows the colon of a declaration is read on both sides. -/
theorem declarationAfterColon_mirrors (htarget : target'.bare = target.bare) (colon colon' : Span)
    (h : Reaches further r r') :
    Mirrors (Lost further) (declarationAfterColon target colon) r
      (declarationAfterColon target' colon') r'
      (fun read s read' s' => read'.bare = read.bare ∧ Lands further s s') := by
  rw [declarationAfterColon_eq, declarationAfterColon_eq]
  refine (peekSameLine_mirrors h (.inr rfl)).bind ?_
  rintro seen s seen' s' hseen
  cases hseen with
  | @token token token' hseen hseen' haligned hmeets =>
      subst hseen hseen'
      refine mirrors_ite (by rw [hmeets.kind]) (fun himport => ?_) fun _ => ?_
      · refine (hmeets.advance (by simp [himport])).bind ?_
        rintro _ u _ u' ⟨_, _, hu⟩
        refine ends_declaration_mirrors ?_ (.aligned hu) _ _ _ _
        simp [Declaration.bare, htarget, importOf, Import.bare, hmeets.text]
      · refine (label_mirrors haligned hmeets).bind ?_
        rintro label u label' u' ⟨hlabel, hu⟩
        exact declarationAfterLabel_mirrors htarget _ _ hlabel (.aligned hu)
  | void void void' reaches =>
      obtain ⟨wanted, others, heq⟩ := declarationSeen_of_isEnd target colon void
      obtain ⟨wanted', others', heq'⟩ := declarationSeen_of_isEnd target' colon' void'
      intro read u hrun
      rw [heq] at hrun
      rw [ends_congr heq']
      refine ends_declaration_mirrors ?_ reaches _ _ _ _ read u hrun
      simp [Declaration.bare, htarget]

/-- What follows the target of a declaration is read on both sides. -/
theorem declarationFrom_mirrors (htarget : target'.bare = target.bare) (h : Reaches further r r') :
    Mirrors (Lost further) (declarationFrom target) r (declarationFrom target') r'
      (fun read s read' s' => read'.bare = read.bare ∧ Lands further s s') := by
  unfold declarationFrom
  refine (peekSameLine_mirrors h (.inl rfl)).bind ?_
  rintro seen s seen' s' hseen
  refine mirrors_mark hseen (fun token token' _ _ hkind hmeets => ?_) ?_
  · refine (hmeets.advance hkind).bind ?_
    rintro colon u colon' u' ⟨_, _, hu⟩
    exact declarationAfterColon_mirrors htarget _ _ (.aligned hu)
  · exact ends_declaration_mirrors (by simp [Declaration.bare, htarget]) hseen.reaches _ _ _ _

/-- The statement that the token ahead begins is the same on both sides. -/
theorem statement_mirrors {token token' : Token}
    (hmeets : Meets further .declaration token r token' r') :
    Mirrors (Lost further) statement r statement r'
      (fun read s read' s' => read'.bare = read.bare ∧ Lands further s s') := by
  unfold statement
  refine hmeets.peek.bind ?_
  rintro _ _ _ _ ⟨⟨rfl, rfl⟩, rfl, rfl⟩
  refine mirrors_ite (by rw [hmeets.kind]) (fun himport => ?_) fun _ => ?_
  · refine (hmeets.advance (by simp [himport])).bind ?_
    rintro _ s _ s' ⟨_, _, hs⟩
    refine (finish_mirrors (.aligned hs) _ _ _ _).bind ?_
    rintro _ u _ u' hu
    exact mirrors_pure
      ⟨by simp [Statement.bare, Item.bare, importOf, Import.bare, hmeets.text], hu⟩
  refine mirrors_ite (by rw [hmeets.isPunct]) (fun _ => ?_) fun _ => ?_
  · refine (reference_mirrors (.meets hmeets)).bind ?_
    rintro reference s reference' s' ⟨hreference, hs⟩
    exact declarationFrom_mirrors (by simp [Target.bare, hreference]) hs
  · refine (identifier_mirrors (.meets hmeets)).bind ?_
    rintro first s first' s' ⟨hfirst, hs⟩
    refine (peekSameLine_mirrors hs (.inl rfl)).bind ?_
    rintro seen u seen' u' hseen
    refine mirrors_mark hseen (fun _ _ _ _ _ _ => ?_) ?_
    · refine (methodFrom_mirrors hfirst hseen.reaches).bind ?_
      rintro method v method' v' ⟨hmethod, hv⟩
      refine (finish_mirrors hv _ _ _ _).bind ?_
      rintro _ w _ w' hw
      exact mirrors_pure ⟨by simp [Statement.bare, Item.bare, hmethod], hw⟩
    · refine (expressionFrom_mirrors hfirst hseen.reaches).bind ?_
      rintro expression v expression' v' ⟨hexpression, hv⟩
      exact declarationFrom_mirrors (by simp [Target.bare, hexpression]) hv

end Grammar

end DiagramText
