import DiagramText.Proofs.Reader.Log

/-!
# The tokens of a source

Tokens tile the source (`Tiles`): each is the source between its offsets and
has a character of its own, and from where one ends to where the next begins
stand only characters that the mode skips (`Mode.Gap`).

A cursor on the source first skips a gap (`Cursor.On.skip`), and then either
cuts the next tile or stands at a fault (`Cursor.On.next_ok`,
`Cursor.On.next_error`).  So does a reading, turn by turn, up to the end of the
source or to a fault: nothing is lost in between, and every turn but the last
makes progress (`tokenize_tiles`).
-/

namespace DiagramText

variable {mode : Mode} {source : Text}

/-- From the one offset up to the other stand only characters that the mode skips. -/
structure Mode.Gap (mode : Mode) (source : Text) (start stop : Nat) : Prop where
  le : start ≤ stop
  skipped : ∀ offset c, start ≤ offset → offset < stop → source[offset]? = some c →
    mode.skips c = true

/-- The token is the source from the one offset up to the other, and has a character of its own. -/
structure Token.Tile (source : Text) (token : Token) (start stop : Nat) : Prop where
  kind : token.kind ≠ .eof
  lt : start < stop
  le : stop ≤ source.length
  span : token.span = .ofOffsets source start stop
  text : token.text = source.slice start stop

/-- The tokens tile the source from the one offset up to the other, with a gap before each. -/
inductive Tiles (mode : Mode) (source : Text) : (start : Nat) → List Token → (stop : Nat) → Prop
  | nil {start : Nat} : Tiles mode source start [] start
  | cons {start first last stop : Nat} {token : Token} {others : List Token}
      (gap : mode.Gap source start first) (tile : token.Tile source first last)
      (later : Tiles mode source last others stop) : Tiles mode source start (token :: others) stop

namespace Tiles

variable {start stop : Nat} {tokens : List Token}

/-- Each tile takes an offset of its own. -/
theorem length_le (h : Tiles mode source start tokens stop) : start + tokens.length ≤ stop := by
  induction h with
  | nil => exact Nat.le_refl _
  | cons gap tile _ ih =>
      have hgap := gap.le
      have htile := tile.lt
      rw [List.length_cons]
      omega

/-- Tiles that begin on the source end on it. -/
theorem stop_le (h : Tiles mode source start tokens stop) (hstart : start ≤ source.length) :
    stop ≤ source.length := by
  induction h with
  | nil => exact hstart
  | cons _ tile _ ih => exact ih tile.le

/-- Tiles are in the order of the source and do not overlap. -/
theorem row (h : Tiles mode source start tokens stop) :
    Span.Row start (tokens.map (·.span)) stop := by
  induction h with
  | nil => exact .nil (Int.le_refl _)
  | cons gap tile _ ih =>
      have hgap := gap.le
      have htile := tile.lt
      rw [List.map_cons, tile.span]
      refine .cons ?_ ?_ ih
      · rw [Span.start_ofOffsets]
        omega
      · rw [Span.start_ofOffsets, Span.stop_ofOffsets]
        omega

end Tiles

/-- Where no token is cut the fault of the scan has its span from the cursor on. -/
theorem Cursor.token_eq_error {cursor : Cursor} {error : LexError} :
    cursor.token mode = .error error ↔
      ∃ fault, mode.scan cursor.rest = .error fault ∧ error = ⟨fault, cursor.spanOf fault.extent⟩ := by
  unfold Cursor.token
  cases mode.scan cursor.rest <;> simp [eq_comm]

namespace Cursor.On

variable {cursor after : Cursor} {token : Token}

/-- At the end of the source nothing is ahead. -/
theorem rest_eq_nil (h : cursor.On source) :
    cursor.rest = [] ↔ cursor.position.offset = source.length := by
  have hle := h.le
  rw [h.rest, List.drop_eq_nil_iff]
  omega

/-- Skipping stays on the source, passes over a gap, and ends before a character that the mode does
not skip, if any is ahead. -/
theorem skip (h : cursor.On source) (mode : Mode) :
    (cursor.skip mode).On source ∧
      mode.Gap source cursor.position.offset (cursor.skip mode).position.offset ∧
      ∀ c, (cursor.skip mode).rest.head? = some c → mode.skips c = false := by
  refine ⟨h.advance (Text.run_le_length _ _), ⟨?_, ?_⟩, ?_⟩
  · rw [Cursor.skip, Cursor.offset_advance]
    omega
  · intro offset c hstart hstop hc
    rw [Cursor.skip, Cursor.offset_advance] at hstop
    obtain ⟨k, rfl⟩ := Nat.exists_eq_add_of_le hstart
    rw [← h.getElem?] at hc
    exact Text.of_lt_run (by omega) hc
  · intro c hc
    rw [Cursor.skip_rest, Mode.strip] at hc
    have hnot := List.head?_dropWhile_not mode.skips cursor.rest
    rw [hc] at hnot
    simpa using hnot

/-- A token that is read at the cursor and is not the end of the source is a tile. -/
theorem tile (h : cursor.On source) (htoken : cursor.token mode = .ok token)
    (hkind : token.kind ≠ .eof) :
    token.Tile source cursor.position.offset (cursor.advance token.text.length).position.offset := by
  obtain ⟨⟨start, htext, hspan⟩, hstart, _⟩ := h.cutFrom htoken
  have hon := h.advance (Reader.span_of_token htoken).2.2
  obtain ⟨_, heof, hpos⟩ := Mode.scan_bounds (Cursor.scan_of_token htoken).1
  have hlong : 0 < token.text.length := hpos.mpr fun hrest => hkind (heof.mpr hrest)
  obtain rfl : start = cursor.position.offset := by
    rw [hspan, Span.start_ofOffsets] at hstart
    omega
  have hstop := hon.le
  simp only [Cursor.offset_advance] at hstop ⊢
  refine ⟨hkind, by omega, hstop, hspan, ?_⟩
  rw [Text.slice_natCast, List.drop_take, Nat.add_sub_cancel_left]
  exact List.prefix_iff_eq_take.mp htext

/-- The end is read at the end of the source. -/
theorem tile_eof (h : cursor.On source) (htoken : cursor.token mode = .ok token)
    (hkind : token.kind = .eof) :
    cursor.position.offset = source.length ∧
      token = ⟨.eof, [], .ofOffsets source source.length source.length⟩ := by
  obtain ⟨lexeme, hscan, rfl⟩ := Cursor.token_eq_ok.mp htoken
  have hrest : cursor.rest = [] := (Mode.scan_bounds hscan).2.1.mp hkind
  have hend := h.rest_eq_nil.mp hrest
  rw [hrest, Mode.scan_nil] at hscan
  obtain rfl := Except.ok.inj hscan
  refine ⟨hend, ?_⟩
  rw [Cursor.spanOf, h.position, hend, hrest]
  simp [Span.ofOffsets]

/-- The next token comes after a gap; it is the next tile, or the end of the source. -/
theorem next_ok (h : cursor.On source) (hnext : cursor.next mode = (.ok token, after)) :
    after.On source ∧ ∃ first, mode.Gap source cursor.position.offset first ∧
      (token.kind ≠ .eof → token.Tile source first after.position.offset) ∧
      (token.kind = .eof → first = source.length ∧
        token = ⟨.eof, [], .ofOffsets source source.length source.length⟩) := by
  obtain ⟨hhere, hgap, _⟩ := h.skip mode
  simp only [Cursor.next] at hnext
  split at hnext
  · next found htoken =>
      obtain ⟨rfl, rfl⟩ : found = token ∧ _ := by simpa using hnext
      have hlength := (Reader.span_of_token htoken).2.2
      exact ⟨hhere.advance hlength, _, hgap, hhere.tile htoken, hhere.tile_eof htoken⟩
  · cases hnext

/-- A fault stands after a gap, at a character that the mode does not skip. -/
theorem next_error {error : LexError} (h : cursor.On source)
    (hnext : cursor.next mode = (.error error, after)) :
    ∃ start c, mode.Gap source cursor.position.offset start ∧ source[start]? = some c ∧
      mode.skips c = false ∧ error.span.start = start := by
  obtain ⟨hhere, hgap, hplain⟩ := h.skip mode
  simp only [Cursor.next] at hnext
  split at hnext
  · cases hnext
  · next found htoken =>
      obtain ⟨rfl, _⟩ : found = error ∧ _ := by simpa using hnext
      obtain ⟨fault, hscan, rfl⟩ := Cursor.token_eq_error.mp htoken
      cases hrest : (cursor.skip mode).rest with
      | nil =>
          rw [hrest, Mode.scan_nil] at hscan
          cases hscan
      | cons c rest =>
          have hc : source[(cursor.skip mode).position.offset]? = some c := by
            rw [← Nat.add_zero (cursor.skip mode).position.offset, ← hhere.getElem?, hrest]
            rfl
          exact ⟨_, c, hgap, hc, hplain c (by rw [hrest]; rfl), rfl⟩

end Cursor.On

/-- The reading has cut the tiles up to the offset: after them come the end of the source, or a fault
at the first character that the mode does not skip. -/
def Cursor.Reading.EndsAfter (reading : Cursor.Reading) (mode : Mode) (source : Text)
    (tiles : List Token) (stop : Nat) : Prop :=
  match reading.fault with
  | none => mode.Gap source stop source.length ∧
      reading.tokens = tiles ++ [⟨.eof, [], .ofOffsets source source.length source.length⟩]
  | some error => reading.tokens = tiles ∧
      ∃ start c, mode.Gap source stop start ∧ source[start]? = some c ∧ mode.skips c = false ∧
        error.span.start = start

/-- A cursor on the source reads tiles from where it is.  The induction is on the turns: each leaves
less ahead than the one before. -/
theorem Cursor.readUpTo_tiles (mode : Mode) (limit : Nat) (cursor : Cursor) (h : cursor.On source)
    (hlimit : cursor.rest.length < limit) :
    ∃ tiles stop, Tiles mode source cursor.position.offset tiles stop ∧
      (cursor.readUpTo mode limit).EndsAfter mode source tiles stop := by
  induction limit generalizing cursor with
  | zero => omega
  | succ limit ih =>
      rcases hnext : cursor.next mode with ⟨error | token, after⟩
      · simp only [readUpTo, hnext]
        exact ⟨[], _, .nil, rfl, h.next_error hnext⟩
      · obtain ⟨hafter, first, hgap, htile, hend⟩ := h.next_ok hnext
        by_cases hkind : token.kind = .eof
        · obtain ⟨rfl, hlast⟩ := hend hkind
          simp only [readUpTo, hnext, hkind, if_true]
          exact ⟨[], _, .nil, hgap, by rw [hlast]; rfl⟩
        · have hfirst := htile hkind
          have hshorter : after.rest.length < limit := by
            have hgaple := hgap.le
            have htilelt := hfirst.lt
            have htilele := hfirst.le
            rw [h.rest, List.length_drop] at hlimit
            rw [hafter.rest, List.length_drop]
            omega
          obtain ⟨tiles, stop, htiles, hends⟩ := ih after hafter hshorter
          simp only [readUpTo, hnext, hkind, if_false]
          refine ⟨token :: tiles, stop, .cons hgap hfirst htiles, ?_⟩
          unfold Reading.EndsAfter at hends ⊢
          split at hends
          · next hfault =>
              simp only [hfault]
              exact ⟨hends.1, by rw [hends.2]; rfl⟩
          · next error hfault =>
              simp only [hfault]
              exact ⟨by rw [hends.1], hends.2⟩

/-- Reading all tokens of a source loses nothing and makes progress: the tokens before its end or
before a fault tile the source from its front, and there are at most as many as characters. -/
theorem tokenize_tiles (mode : Mode) (source : Text) :
    ∃ tiles stop, Tiles mode source 0 tiles stop ∧ tiles.length ≤ source.length ∧
      (tokenize mode source).EndsAfter mode source tiles stop := by
  have hon : (Cursor.ofText source).On source := ⟨rfl, Nat.zero_le _, rfl⟩
  obtain ⟨tiles, stop, htiles, hends⟩ := Cursor.readUpTo_tiles mode _ _ hon (Nat.lt_succ_self _)
  have hlength := htiles.length_le
  have hstop := htiles.stop_le (Nat.zero_le _)
  have hzero : (Cursor.ofText source).position.offset = 0 := rfl
  exact ⟨tiles, stop, htiles, by omega, hends⟩

example : ((tokenize .declaration "a -> b".toList).tokens.map (·.text)) =
    ["a".toList, "->".toList, "b".toList, []] := by decide +kernel

end DiagramText
