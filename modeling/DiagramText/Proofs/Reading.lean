import DiagramText.Proofs.Reader.Founds
import DiagramText.Proofs.Reader.Reads
import DiagramText.Proofs.Tokens

/-!
# Tokens read at an offset

A cursor placed at any offset is on the source (`Cursor.on_atOffset`), so a
token that it reads next, and every token of a whole reading, was read in the
mode at some place of the source (`Cursor.readFrom_atOffset`,
`readFrom_of_tokenize`).  A text that the mode scans whole is read as that one
token and the end (`Text.isSingle_of_scan`).
-/

namespace DiagramText

variable {mode : Mode} {source : Text} {token : Token}

namespace Cursor

/-- The cursor at an offset is on the source, also where the source has no such offset. -/
theorem on_atOffset (source : Text) (offset : Int) : (atOffset source offset).On source := by
  have hstart : (ofText source).On source := ⟨rfl, Nat.zero_le _, rfl⟩
  exact hstart.advance (Nat.min_le_right _ _)

/-- The next token is read where the mode has nothing more to skip. -/
theorem On.readFrom_next {cursor : Cursor} (h : cursor.On source)
    (hnext : (cursor.next mode).1 = .ok token) : token.ReadFrom source mode := by
  refine ⟨cursor.skip mode, (h.skip mode).1, ?_⟩
  simp only [next] at hnext
  split at hnext
  · next found htoken => exact htoken.trans hnext
  · cases hnext

theorem readFrom_atOffset {offset : Int} (h : ((atOffset source offset).next mode).1 = .ok token) :
    token.ReadFrom source mode :=
  (on_atOffset source offset).readFrom_next h

theorem readUpTo_readFrom (limit : Nat) {cursor : Cursor} (h : cursor.On source) :
    ∀ token ∈ (cursor.readUpTo mode limit).tokens, token.ReadFrom source mode := by
  induction limit generalizing cursor with
  | zero => simp [readUpTo]
  | succ limit ih =>
      rcases hnext : cursor.next mode with ⟨error | token, after⟩
      · simp [readUpTo, hnext]
      · have hread : token.ReadFrom source mode := h.readFrom_next (congrArg Prod.fst hnext)
        by_cases hkind : token.kind = .eof
        · simpa [readUpTo, hnext, hkind] using hread
        · simp only [readUpTo, hnext, hkind, if_false, List.forall_mem_cons]
          exact ⟨hread, ih (h.next_ok hnext).1⟩

end Cursor

/-- Every token of a reading was read at some place of the source. -/
theorem readFrom_of_tokenize (h : token ∈ (tokenize mode source).tokens) :
    token.ReadFrom source mode :=
  Cursor.readUpTo_readFrom _ ⟨rfl, Nat.zero_le _, rfl⟩ token h

/-- Reading the text in the mode gives one token of this kind, which is all of it, and the end. -/
def Text.IsSingle (source : Text) (mode : Mode) (kind : TokenKind) : Prop :=
  (tokenize mode source).tokens =
      [⟨kind, source, .ofOffsets source 0 source.length⟩,
        ⟨.eof, [], .ofOffsets source source.length source.length⟩] ∧
    (tokenize mode source).fault = none

/-- At the end of the source the end is read, and the cursor stays. -/
theorem Cursor.On.next_nil {cursor : Cursor} (h : cursor.On source) (hrest : cursor.rest = []) :
    cursor.next mode =
      (.ok ⟨.eof, [], .ofOffsets source source.length source.length⟩, cursor) := by
  have hskip : cursor.skip mode = cursor := Cursor.skip_eq_self (by rw [hrest]; rfl)
  have htoken : cursor.token mode = .ok ⟨.eof, [], cursor.spanOf 0⟩ :=
    Cursor.token_eq_ok.mpr ⟨⟨.eof, 0⟩, by rw [hrest, Mode.scan_nil], rfl⟩
  have hend := (h.tile_eof htoken rfl).2
  simp only [Cursor.next, hskip, htoken, hend]
  rfl

/-- A text that is scanned whole is a single token. -/
theorem Text.isSingle_of_scan {kind : TokenKind} (h : mode.scan source = .ok ⟨kind, source.length⟩)
    (hkind : kind ≠ .eof) : source.IsSingle mode kind := by
  have hon : (Cursor.ofText source).On source := ⟨rfl, Nat.zero_le _, rfl⟩
  have hfirst : (Cursor.ofText source).next mode =
      (.ok ⟨kind, source, .ofOffsets source 0 source.length⟩,
        (Cursor.ofText source).advance source.length) := by
    have hskip : (Cursor.ofText source).skip mode = Cursor.ofText source :=
      Cursor.skip_eq_self (Mode.strip_of_scan h).1
    have htoken : (Cursor.ofText source).token mode =
        .ok ⟨kind, source, .ofOffsets source 0 source.length⟩ := by
      refine Cursor.token_eq_ok.mpr ⟨_, h, ?_⟩
      simp [Cursor.ofText, Cursor.spanOf, Span.ofOffsets, Position.ofOffset, Position.advance,
        Position.start]
    simp only [Cursor.next, hskip, htoken]
  have hlast : ((Cursor.ofText source).advance source.length).next mode = _ :=
    (hon.advance (Nat.le_refl source.length)).next_nil List.drop_length
  have hsome : source ≠ [] := fun hnil => hkind ((Mode.scan_bounds h).2.1.mpr hnil)
  obtain ⟨limit, hlimit⟩ := Nat.exists_eq_succ_of_ne_zero (mt List.length_eq_zero_iff.mp hsome)
  have hlength : (Cursor.ofText source).rest.length + 1 = limit + 1 + 1 := congrArg (· + 1) hlimit
  rw [IsSingle, tokenize, Cursor.read, hlength]
  simp [Cursor.readUpTo, hfirst, hkind, hlast]

end DiagramText
