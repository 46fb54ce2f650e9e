import DiagramText.Proofs.Text.Character
import DiagramText.Proofs.Text.JsonString

/-!
# Reading S-expressions

The notation of S-expressions has parentheses, bare atoms and JSON strings, with white space
between them.  A text falls into pieces (`Datum.pieces?`), and a stack of open lists makes data of
them (`Datum.build?`).  `Datum.read?` takes the whole text, so a parenthesis too many or too few is
an error.  A datum is read back from its pieces (`Datum.build?_pieces`); what a text has to show
for that is said by `Datum.Takes`, which follows the text from one place to a later one.
-/

namespace DiagramText

/-- What an S-expression denotes. -/
inductive Datum where
  | atom (text : Text)
  | string (text : Text)
  | list (parts : List Datum)

namespace Datum

/-- A parenthesis, or a datum that is no list. -/
inductive Piece where
  | opening
  | closing
  | leaf (datum : Datum)

mutual

/-- The pieces of a datum, a list between its parentheses. -/
def pieces : Datum → List Piece
  | .atom text => [.leaf (.atom text)]
  | .string text => [.leaf (.string text)]
  | .list parts => .opening :: (piecesAll parts ++ [.closing])

/-- The pieces of data, one after another. -/
def piecesAll : List Datum → List Piece
  | [] => []
  | datum :: others => datum.pieces ++ piecesAll others

end

/-- The pieces of data one after the other are those of both. -/
theorem piecesAll_append (data others : List Datum) :
    piecesAll (data ++ others) = piecesAll data ++ piecesAll others := by
  induction data with
  | nil => rfl
  | cons datum data ih => rw [List.cons_append, piecesAll, ih, piecesAll, List.append_assoc]

/-! ## The reader -/

/-- Whether the character can stand in a bare atom. -/
def isBare (c : Char) : Bool :=
  !isBlank c && c != '(' && c != ')' && c != '\x22'

/-- The pieces that a text falls into. -/
def pieces? : Text → Option (List Piece)
  | [] => some []
  | c :: rest =>
    if isBlank c then pieces? rest
    else if c = '(' then (pieces? rest).map (.opening :: ·)
    else if c = ')' then (pieces? rest).map (.closing :: ·)
    else if c = '\x22' then
      match h : Text.jsonString? rest with
      | none => none
      | some (text, after) =>
        have := Text.length_lt_of_jsonString? h
        (pieces? after).map (.leaf (.string text) :: ·)
    else
      (pieces? (rest.dropWhile isBare)).map (.leaf (.atom (c :: rest.takeWhile isBare)) :: ·)
termination_by s => s.length
decreasing_by
  all_goals simp only [List.length_cons]
  all_goals have := (List.dropWhile_sublist isBare (l := rest)).length_le
  all_goals omega

/-- Makes data of pieces.  `read` holds what stands so far in the innermost open list and `outer`
the same for the lists around it, last first; at the end no list is open. -/
def build? : List (List Datum) → List Datum → List Piece → Option (List Datum)
  | [], read, [] => some read.reverse
  | _ :: _, _, [] => none
  | outer, read, .opening :: pieces => build? (read :: outer) [] pieces
  | [], _, .closing :: _ => none
  | around :: outer, read, .closing :: pieces => build? outer (.list read.reverse :: around) pieces
  | outer, read, .leaf datum :: pieces => build? outer (datum :: read) pieces

/-- The data that a text writes, to its end. -/
def read? (s : Text) : Option (List Datum) :=
  (pieces? s).bind (build? [] [])

/-! ## Data from their pieces -/

mutual

/-- A datum is read back from its pieces, whatever is open around it and follows it. -/
theorem build?_pieces (outer : List (List Datum)) (read : List Datum) (datum : Datum)
    (rest : List Piece) :
    build? outer read (datum.pieces ++ rest) = build? outer (datum :: read) rest := by
  cases datum with
  | atom text => rw [pieces, List.singleton_append, build?]
  | string text => rw [pieces, List.singleton_append, build?]
  | list parts =>
    rw [pieces, List.cons_append, List.append_assoc, build?, build?_piecesAll, List.append_nil,
      List.singleton_append, build?, List.reverse_reverse]

/-- Data are read back from their pieces, in order. -/
theorem build?_piecesAll (outer : List (List Datum)) (read : List Datum) (data : List Datum)
    (rest : List Piece) :
    build? outer read (piecesAll data ++ rest) = build? outer (data.reverse ++ read) rest := by
  cases data with
  | nil => rfl
  | cons datum others =>
    rw [piecesAll, List.append_assoc, build?_pieces, build?_piecesAll, List.reverse_cons,
      List.append_assoc, List.singleton_append]

end

/-! ## Following a text -/

/-- From the one place of a text to the later one stand these pieces. -/
def Takes (start : Text) (taken : List Piece) (later : Text) : Prop :=
  pieces? start = (pieces? later).map (taken ++ ·)

/-- What is taken in turn is taken together. -/
theorem Takes.trans {start middle later : Text} {taken further : List Piece}
    (first : Takes start taken middle) (second : Takes middle further later) :
    Takes start (taken ++ further) later := by
  unfold Takes at *
  rw [first, second, Option.map_map]
  congr 1
  funext pieces
  exact (List.append_assoc taken further pieces).symm

/-- Nothing is taken where nothing is read. -/
theorem takes_nothing (s : Text) : Takes s [] s :=
  Option.map_id_apply.symm

/-- A blank is passed over. -/
theorem takes_blank {c : Char} (h : isBlank c = true) (rest : Text) :
    Takes (c :: rest) [] rest := by
  rw [Takes, pieces?, if_pos h]
  exact takes_nothing rest

/-- Blanks are passed over. -/
theorem takes_blanks {blanks : Text} (h : ∀ c ∈ blanks, isBlank c = true) (rest : Text) :
    Takes (blanks ++ rest) [] rest := by
  induction blanks with
  | nil => exact takes_nothing rest
  | cons c blanks ih =>
    exact (takes_blank (h c List.mem_cons_self) _).trans
      (ih fun c hc => h c (List.mem_cons_of_mem _ hc))

/-- An opening parenthesis is taken. -/
theorem takes_opening (rest : Text) : Takes ('(' :: rest) [.opening] rest := by
  rw [Takes, pieces?, if_neg (by decide), if_pos rfl]
  rfl

/-- A closing parenthesis is taken. -/
theorem takes_closing (rest : Text) : Takes (')' :: rest) [.closing] rest := by
  rw [Takes, pieces?, if_neg (by decide), if_neg (by decide), if_pos rfl]
  rfl

/-- Closing parentheses are taken one by one. -/
theorem takes_closings (count : Nat) (rest : Text) :
    Takes (List.replicate count ')' ++ rest) (List.replicate count .closing) rest := by
  induction count with
  | zero => exact takes_nothing rest
  | succ count ih => exact (takes_closing _).trans ih

/-- A bare atom ends before the first character that is not bare. -/
theorem takes_atom {atom : Text} (hne : atom ≠ []) (hatom : ∀ c ∈ atom, isBare c = true)
    {ender : Char} (hender : isBare ender = false) (rest : Text) :
    Takes (atom ++ ender :: rest) [.leaf (.atom atom)] (ender :: rest) := by
  cases atom with
  | nil => exact absurd rfl hne
  | cons c others =>
    have hc := hatom c List.mem_cons_self
    have hothers : ∀ c ∈ others, isBare c = true := fun c h => hatom c (List.mem_cons_of_mem _ h)
    simp only [isBare, Bool.and_eq_true, Bool.not_eq_true', bne_iff_ne] at hc
    obtain ⟨⟨⟨hblank, hopening⟩, hclosing⟩, hquote⟩ := hc
    rw [Takes, List.cons_append, pieces?, if_neg (by simp [hblank]), if_neg hopening,
      if_neg hclosing, if_neg hquote, List.takeWhile_append_of_pos hothers,
      List.dropWhile_append_of_pos hothers, List.takeWhile_cons_of_neg (by simp [hender]),
      List.dropWhile_cons_of_neg (by simp [hender]), List.append_nil]
    rfl

/-- A string is taken up to its closing quote. -/
theorem takes_string {s after rest : Text} (h : Text.jsonString? after = some (s, rest)) :
    Takes ('\x22' :: after) [.leaf (.string s)] rest := by
  rw [Takes, pieces?, if_neg (by decide), if_neg (by decide), if_neg (by decide), if_pos rfl]
  split
  next hnone => simp [h] at hnone
  next text later hsome =>
    obtain ⟨rfl, rfl⟩ := Prod.mk.inj (Option.some.inj (h.symm.trans hsome))
    rfl

/-- A JSON string is taken for its text. -/
theorem takes_json (s rest : Text) : Takes (s.json ++ rest) [.leaf (.string s)] rest := by
  rw [Text.json, List.append_assoc, List.cons_append, List.singleton_append]
  exact takes_string (Text.jsonString?_flatMap Text.writes_jsonChar s rest)

/-- An ASCII JSON string is taken for its text. -/
theorem takes_asciiJson (s rest : Text) : Takes (s.asciiJson ++ rest) [.leaf (.string s)] rest := by
  rw [Text.asciiJson, List.append_assoc, List.cons_append, List.singleton_append]
  exact takes_string (Text.jsonString?_flatMap Text.writes_asciiJsonChar s rest)

/-- A text that shows the pieces of one datum and nothing else is read as that datum. -/
theorem read?_of_takes {s : Text} {datum : Datum} (h : Takes s datum.pieces []) :
    read? s = some [datum] := by
  have hpieces : pieces? s = some (datum.pieces ++ []) := by
    rw [h, pieces?, Option.map_some]
  rw [read?, hpieces, Option.bind_some, build?_pieces]
  rfl

end Datum
end DiagramText
