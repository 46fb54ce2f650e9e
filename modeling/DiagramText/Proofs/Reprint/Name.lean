import DiagramText.Proofs.Grammar.Mirror
import DiagramText.Proofs.Lexeme.RespellText
import DiagramText.Proofs.Reader.Reads

/-!
# Names that are printed are read again

Names, expressions and references that were read are read again from their
canonical source, wherever a text follows that ends the name in it
(`NameStops`): the end of the source, a mark, or a connection after a space.
-/

namespace DiagramText

open Grammar Reader

/-! ## What follows a name -/

/-- The text ends the name before it, and begins with this token. -/
structure NameStops (u : Text) (kind : TokenKind) (x : Text) : Prop where
  ends : NameEnds u
  ahead : ∃ rest, Mode.declaration.Cuts u kind x rest

/-- A name stops at the end of the text. -/
theorem NameStops.nil : NameStops [] .eof [] :=
  ⟨.nil, _, Mode.cuts_nil .declaration⟩

/-- Parentheses and colons are cut as marks. -/
theorem cuts_mark {mark : Char} (h : mark ∈ ['(', ')', ':', '[', ']']) (u : Text) :
    Mode.declaration.Cuts (mark :: u) .punct [mark] u := by
  refine .of_scan (x := [mark]) ?_ rfl
  simp only [List.mem_cons, List.not_mem_nil, or_false] at h
  rcases h with rfl | rfl | rfl | rfl | rfl <;> rfl

theorem cuts_colon (u : Text) : Mode.declaration.Cuts (':' :: u) .punct [':'] u :=
  cuts_mark (by simp) u

/-- A name stops before a mark. -/
theorem NameStops.mark {mark : Char} (h : mark ∈ ['(', ')', ':']) (u : Text) :
    NameStops (mark :: u) .punct [mark] := by
  refine ⟨.mark ?_ u, u, cuts_mark ?_ u⟩ <;>
    simp only [List.mem_cons, List.not_mem_nil, or_false] at h ⊢ <;>
    rcases h with rfl | rfl | rfl <;> simp

/-- A connection that is printed is cut whole, up to the space behind it. -/
theorem IsConnection.cuts {op : Text} (h : IsConnection op) (u : Text) :
    Mode.declaration.Cuts (op ++ ' ' :: u) .connection op (' ' :: u) :=
  .of_scan (h.scan (Text.begins_cons.mpr (by decide))) rfl

/-- A name stops before a connection. -/
theorem NameStops.connection {op : Text} (h : IsConnection op) (u : Text) :
    NameStops (' ' :: (op ++ ' ' :: u)) .connection op :=
  ⟨.connection (h.pos _), _, (h.cuts u).space⟩

/-- A dot goes on with a name, so it ends the part before it. -/
theorem NameEnds.dot (u : Text) : NameEnds ('.' :: u) :=
  .mark (by simp) u

/-! ## Parts of names -/

/-- The source of a part is cut as the token it was read from. -/
inductive PartCuts (part : Identifier) (u : Text) : Prop
  | bare (quote : part.quote = none) (fields : part.fields = [])
      (cuts : Mode.declaration.Cuts (part.partSource ++ u) .ident part.name u)
  | quoted {text : Text} (name : part.name = (Text.unquote? text).getD [])
      (quote : part.quote = text.head?.bind QuoteMark.ofChar?) (fields : part.fields = [])
      (cuts : Mode.declaration.Cuts (part.partSource ++ u) .quoted text u)

/-- A part of a name that is printed is cut whole. -/
theorem Identifier.IsPart.cuts {part : Identifier} (h : part.IsPart) {u : Text} (hu : NameEnds u) :
    PartCuts part u := by
  cases h with
  | bare spelled => exact .bare rfl rfl (.of_scan ((IsName.of_spells spelled).scan hu) rfl)
  | @quoted text span spelled =>
      have hquoted := IsQuoted.of_spells spelled
      obtain ⟨mark, _, hmark, hsource⟩ := hquoted.quote_unquote?
      refine .quoted rfl rfl rfl ?_
      simp only [Identifier.partSource, hmark, hsource]
      refine .of_scan ((Mode.scan_eq_ok ?_).mpr (hquoted.firstOf _ (hu.begins.imp ?_))) rfl
      · simp [(spelled.ne_nil (by decide))]
      · intro c hc
        exact hc.2.2.2

/-- A part of a name that is printed is read again. -/
theorem namePart_reads {part : Identifier} (h : part.IsPart) {u : Text} (hu : NameEnds u) :
    Reads namePart (part.partSource ++ u) fun found r => found.bare = part.bare ∧ r.At u := by
  unfold namePart
  obtain ⟨name, quote, fields, span⟩ := part
  cases h.cuts hu with
  | bare hquote hfields cuts =>
      obtain rfl := hquote
      obtain rfl := hfields
      refine (peek_reads cuts).bind ?_
      rintro token ⟨hkind, htext⟩
      simp only [hkind]
      refine (advance_reads cuts (by decide)).bind fun _ _ => reads_pure ?_
      simp [Identifier.bare, htext]
  | quoted hname hquote hfields cuts =>
      obtain rfl := hname
      obtain rfl := hquote
      obtain rfl := hfields
      refine (peek_reads cuts).bind ?_
      rintro token ⟨hkind, htext⟩
      simp only [hkind]
      refine (advance_reads cuts (by decide)).bind fun _ _ => reads_pure ?_
      simp [Identifier.bare, htext]

/-- No part of a name begins with a dot. -/
theorem Identifier.IsPart.begins {part : Identifier} (h : part.IsPart) (u : Text) :
    Text.Begins (· ≠ '.') (part.partSource ++ u) := by
  cases h with
  | @bare name span spelled =>
      have hname := IsName.of_spells spelled
      obtain ⟨c, s, rfl⟩ := List.exists_cons_of_ne_nil hname.some
      have hne : namePhrase.length (c :: s) ≠ 0 := by
        rw [hname.length]
        exact Nat.succ_ne_zero _
      have hfront := (namePhrase_front (Phrase.length_ne_zero_iff.mp hne)).1
      refine Text.begins_cons.mpr ?_
      rintro rfl
      exact absurd hfront (by decide)
  | @quoted text span spelled =>
      have hquoted := IsQuoted.of_spells spelled
      obtain ⟨mark, _, hmark, hsource⟩ := hquoted.quote_unquote?
      obtain ⟨mark', _, body, htext, _⟩ := hquoted
      simp only [Identifier.partSource, hmark, hsource]
      rw [htext]
      refine Text.begins_cons.mpr ?_
      cases mark' <;> decide

/-- A dot before anything but another is cut as a mark. -/
theorem cuts_dot {u : Text} (h : u.Begins (· ≠ '.')) : Mode.declaration.Cuts ('.' :: u) .punct ['.'] u := by
  refine .of_scan (x := ['.']) ?_ rfl
  cases u with
  | nil => rfl
  | cons c u =>
      have hc : c ≠ '.' := h c rfl
      have himport : importLength ('.' :: c :: u) = 0 := by simp [importLength, hc]
      refine (Mode.scan_eq_ok (by simp)).mpr ?_
      refine Recogniser.firstOf_cons_eq_some.mpr (.inr ⟨rfl, ?_⟩)
      refine Recogniser.firstOf_cons_eq_some.mpr (.inr ⟨rfl, ?_⟩)
      refine Recogniser.firstOf_cons_eq_some.mpr (.inr ⟨rfl, ?_⟩)
      refine Recogniser.firstOf_cons_eq_some.mpr (.inr ⟨rfl, ?_⟩)
      refine Recogniser.firstOf_cons_eq_some.mpr (.inr ⟨Recogniser.ofLength_eq_none.mpr himport, ?_⟩)
      rfl

/-! ## Names with fields -/

/-- The first of the parts stands alone, and the mark before each of the others. -/
theorem Text.join_cons (mark first : Text) (others : List Text) :
    Text.join mark (first :: others) = first ++ others.flatMap (mark ++ ·) := by
  induction others generalizing first with
  | nil => simp [Text.join, List.intercalate]
  | cons next others ih =>
      have := ih next
      simp only [Text.join, List.intercalate, List.intersperse_cons_cons, List.flatten_cons,
        List.flatMap_cons, List.append_assoc] at this ⊢
      rw [this]

/-- A field after its dot. -/
def Identifier.fieldSource (field : Identifier) : Text :=
  '.' :: field.partSource

/-- A name is printed as its first part and its fields. -/
theorem Identifier.canonical_eq (name : Identifier) :
    name.canonical = name.partSource ++ name.fields.flatMap (·.fieldSource) := by
  rw [canonical, List.map_cons, Text.join_cons, List.flatMap_map]
  rfl

/-- A token of the text of a mark is the mark. -/
theorem isMark_of_text {token : Token} {mark : Char} (h : token.kind = .punct ∧ token.text = [mark]) :
    isMark (some token) mark = true :=
  (isPunct_eq h mark).trans (by simp)

/-- A token of another kind or text is not the mark. -/
theorem not_isMark {token : Token} {kind : TokenKind} {x : Text} {mark : Char}
    (h : token.kind = kind ∧ token.text = x) (hother : kind = .punct → x ≠ [mark]) :
    ¬ isMark (some token) mark = true := by
  have hmark : isMark (some token) mark = _ := isPunct_eq h mark
  simpa [hmark] using hother

/-- A field that is printed is read again. -/
theorem fieldStep_reads {field : Identifier} (h : field.IsPart) {u : Text} (hu : NameEnds u) :
    Reads fieldStep (field.fieldSource ++ u)
      fun found r => (∃ part, found = some part ∧ part.bare = field.bare) ∧ r.At u := by
  have hcuts := cuts_dot (h.begins u)
  unfold fieldStep
  refine (peekSameLine_reads hcuts).bind ?_
  rintro seen ⟨token, rfl, htoken⟩
  rw [if_pos (isMark_of_text htoken)]
  refine (advance_reads hcuts (by decide)).bind fun _ _ => ?_
  refine (namePart_reads h hu).bind fun part hpart => ?_
  exact reads_pure ⟨part, rfl, hpart⟩

/-- No field is read where no dot follows. -/
theorem fieldStep_stops {u x : Text} {kind : TokenKind} (hu : NameStops u kind x)
    (hdot : kind = .punct → x ≠ ['.']) :
    Reads fieldStep u fun found r => found = none ∧ r.At u := by
  obtain ⟨_, hcuts⟩ := hu.ahead
  unfold fieldStep
  refine (peekSameLine_reads hcuts).bind ?_
  rintro seen ⟨token, rfl, htoken⟩
  rw [if_neg (not_isMark htoken hdot)]
  exact reads_pure rfl

/-- Fields that are printed are read again. -/
theorem fields_reads {fields : List Identifier} (h : ∀ field ∈ fields, field.IsPart) {u x : Text}
    {kind : TokenKind} (hu : NameStops u kind x) (hdot : kind = .punct → x ≠ ['.']) :
    Reads Grammar.fields (fields.flatMap (·.fieldSource) ++ u)
      fun found r => found.map (·.bare) = fields.map (·.bare) ∧ r.At u :=
  many_reads (E := NameEnds) (fun _ => fieldStep_spec) hu.ends (fun _ _ _ _ => .dot _)
    (fieldStep_stops hu hdot) fun field hfield _ hrest => fieldStep_reads (h field hfield) hrest

/-- A name begins with its own token. -/
theorem Identifier.Written.front {name : Identifier} (h : name.Written) {u : Text} (hu : NameEnds u) :
    ∃ kind x rest, Mode.declaration.Cuts (name.canonical ++ u) kind x rest ∧
      (kind = .ident ∨ kind = .quoted) := by
  have hends : NameEnds (name.fields.flatMap (·.fieldSource) ++ u) :=
    of_flatMap (fun _ _ _ _ => .dot _) hu
  rw [Identifier.canonical_eq, List.append_assoc]
  cases h.head.cuts hends with
  | bare _ _ cuts => exact ⟨_, _, _, cuts, .inl rfl⟩
  | quoted _ _ _ cuts => exact ⟨_, _, _, cuts, .inr rfl⟩

/-- A name that is printed is read again. -/
theorem identifier_reads {name : Identifier} (h : name.Written) {u x : Text} {kind : TokenKind}
    (hu : NameStops u kind x) (hdot : kind = .punct → x ≠ ['.']) :
    Reads identifier (name.canonical ++ u) fun found r => found.bare = name.bare ∧ r.At u := by
  have hends : NameEnds (name.fields.flatMap (·.fieldSource) ++ u) :=
    of_flatMap (fun _ _ _ _ => .dot _) hu.ends
  rw [Identifier.canonical_eq, List.append_assoc]
  unfold identifier
  refine (namePart_reads h.head hends).bind fun head hhead => ?_
  refine (fields_reads h.fields hu hdot).bind fun fields hfields => reads_pure ?_
  cases name
  cases head
  simp_all [Identifier.bare, Identifier.bareAll_eq_map]

/-! ## Expressions -/

/-- A connection and the name it leads to. -/
def hopSource (hop : Connection × Identifier) : Text :=
  ' ' :: (hop.1.op ++ ' ' :: hop.2.canonical)

/-- An expression is printed as its first name and the hops from it. -/
theorem Expression.canonical_eq {expression : Expression} (h : expression.Written) :
    expression.canonical = expression.first.canonical ++
      (expression.connections.zip expression.others).flatMap hopSource := by
  have hsecond : expression.edges.map (·.2) = expression.connections.zip expression.others := by
    refine List.map_snd_zip ?_
    simp [Expression.identifiers, List.length_zip, h.count]
  rw [← hsecond, List.flatMap_map, canonical]
  congr 2
  funext edge
  simp [hopSource]

/-- What may follow a name in an expression: a connection, or what ends the expression, which is
neither a dot nor an opening parenthesis. -/
def HopStops (u : Text) : Prop :=
  ∃ kind x, NameStops u kind x ∧ (kind = .punct → x ≠ ['.'] ∧ x ≠ ['('])

/-- A connection ends the name before it. -/
theorem HopStops.hop {hop : Connection × Identifier}
    (h : Mode.declaration.Spells .connection hop.1.op) (u : Text) : HopStops (hopSource hop ++ u) := by
  refine ⟨.connection, hop.1.op, ?_, by simp⟩
  simpa [hopSource] using NameStops.connection (IsConnection.of_spells h) (hop.2.canonical ++ u)

/-- The connections of an expression and the names they lead to are written. -/
theorem Expression.Written.hop {expression : Expression} (h : expression.Written) :
    ∀ hop ∈ expression.connections.zip expression.others,
      Mode.declaration.Spells .connection hop.1.op ∧ hop.2.Written := by
  rintro ⟨connection, name⟩ hmem
  obtain ⟨hconnection, hname⟩ := List.of_mem_zip hmem
  exact ⟨h.connections _ hconnection, h.others _ hname⟩

/-- After the first name of an expression its connections follow, and what follows them. -/
theorem hops_stop {expression : Expression} (h : expression.Written) {u x : Text} {kind : TokenKind}
    (hu : NameStops u kind x) (hmark : kind = .punct → x ≠ ['.'] ∧ x ≠ ['(']) :
    HopStops ((expression.connections.zip expression.others).flatMap hopSource ++ u) :=
  of_flatMap (fun hop hmem rest _ => .hop (h.hop hop hmem).1 rest) ⟨kind, x, hu, hmark⟩

/-- A hop that is printed is read again. -/
theorem hopStep_reads {hop : Connection × Identifier}
    (hop_op : Mode.declaration.Spells .connection hop.1.op) (hname : hop.2.Written) {u : Text}
    (hu : HopStops u) :
    Reads hopStep (hopSource hop ++ u)
      fun found r => (∃ read, found = some read ∧
        (read.1.bare, read.2.bare) = (hop.1.bare, hop.2.bare)) ∧ r.At u := by
  obtain ⟨kind, x, hstops, hmark⟩ := hu
  have hcuts := (IsConnection.of_spells hop_op).cuts (hop.2.canonical ++ u)
  have hsource : hopSource hop ++ u = ' ' :: (hop.1.op ++ ' ' :: (hop.2.canonical ++ u)) := by
    simp [hopSource]
  rw [hsource]
  unfold hopStep
  refine (peekSameLine_reads hcuts.space).bind ?_
  rintro seen ⟨token, rfl, hkind, htext⟩
  simp only [hopFrom, if_pos hkind]
  refine (advance_reads hcuts.space (by decide)).bind fun _ _ => ?_
  refine Reads.bind (identifier_reads hname hstops fun hpunct => (hmark hpunct).1).space fun name hread => reads_pure ?_
  exact ⟨_, rfl, by rw [hread, Connection.bare, Connection.bare, htext]⟩

/-- No hop is read where no connection follows. -/
theorem hopStep_stops {u x : Text} {kind : TokenKind} (hu : NameStops u kind x)
    (hconnection : kind ≠ .connection) : Reads hopStep u fun found r => found = none ∧ r.At u := by
  obtain ⟨_, hcuts⟩ := hu.ahead
  unfold hopStep
  refine (peekSameLine_reads hcuts).bind ?_
  rintro seen ⟨token, rfl, hkind, _⟩
  simp only [hopFrom]
  rw [if_neg (by rwa [hkind])]
  exact reads_pure rfl

/-- The hops that are printed behind a first name are read again. -/
theorem expressionFrom_reads {expression : Expression} (h : expression.Written)
    {first : Identifier} (hfirst : first.bare = expression.first.bare) {u x : Text}
    {kind : TokenKind} (hu : NameStops u kind x) (hmark : kind = .punct → x ≠ ['.'] ∧ x ≠ ['('])
    (hconnection : kind ≠ .connection) :
    Reads (expressionFrom first)
      ((expression.connections.zip expression.others).flatMap hopSource ++ u)
      fun found r => found.bare = expression.bare ∧ r.At u := by
  rw [expressionFrom_eq]
  refine Reads.bind (many_reads (K := fun hop => (hop.1.bare, hop.2.bare))
    (L := fun hop => (hop.1.bare, hop.2.bare)) (E := HopStops) (fun _ => hopStep_spec)
    ⟨kind, x, hu, hmark⟩ ?_ (hopStep_stops hu hconnection) ?_) ?_
  · intro hop hmem rest _
    exact .hop (h.hop hop hmem).1 _
  · intro hop hmem rest hrest
    exact hopStep_reads (h.hop hop hmem).1 (h.hop hop hmem).2 hrest
  · intro hops hhops
    refine reads_pure ?_
    have hlength := h.count
    have hothers : hops.map (fun hop => hop.2.bare) = expression.others.map (·.bare) := by
      have hnames : (expression.connections.zip expression.others).map (·.2) = expression.others :=
        List.map_snd_zip (by omega)
      have := congrArg (List.map Prod.snd) hhops
      rw [← hnames]
      simpa [Function.comp_def] using this
    have hconnections : hops.map (fun hop => hop.1.bare) = expression.connections.map (·.bare) := by
      have hlinks : (expression.connections.zip expression.others).map (·.1) =
          expression.connections := List.map_fst_zip (by omega)
      have := congrArg (List.map Prod.fst) hhops
      rw [← hlinks]
      simpa [Function.comp_def] using this
    simp [Expression.bare, Identifier.bareAll_eq_map, Function.comp_def, hfirst, hothers, hconnections]

/-- An expression that is printed is read again. -/
theorem expression_reads {expression : Expression} (h : expression.Written) {u x : Text}
    {kind : TokenKind} (hu : NameStops u kind x) (hmark : kind = .punct → x ≠ ['.'] ∧ x ≠ ['('])
    (hconnection : kind ≠ .connection) :
    Reads Grammar.expression (expression.canonical ++ u)
      fun found r => found.bare = expression.bare ∧ r.At u := by
  obtain ⟨kind', x', hstops, hmark'⟩ := hops_stop h hu hmark
  rw [Expression.canonical_eq h, List.append_assoc]
  unfold Grammar.expression
  refine (identifier_reads h.first hstops fun hpunct => (hmark' hpunct).1).bind fun first hfirst => ?_
  exact expressionFrom_reads h hfirst hu hmark hconnection

/-! ## References -/

/-- A digit belongs to a name, wherever it stands. -/
theorem namePhrase_digit {c : Char} (h : c.isDigit = true) (s : Text) :
    c ≠ '\\' ∧ namePhrase.isBody c = true ∧ namePhrase.isBarred (c :: s) = false := by
  refine ⟨?_, ?_, Bool.eq_false_iff.mpr fun hbarred => ?_⟩
  · rintro rfl
    exact absurd h (by decide)
  · simp [namePhrase, isWord_of_isPlainWord (isPlainWord_of_isDigit h)]
  · obtain ⟨rest, hrest⟩ := connectionLength_pos_iff.mp (of_decide_eq_true hbarred)
    simp only [List.cons.injEq] at hrest
    rcases hrest with ⟨rfl, _⟩ | ⟨rfl, _⟩ | ⟨rfl, _⟩ <;> exact absurd h (by decide)

/-- A row of digits is one name phrase. -/
theorem namePhrase_extent_digits {digits : Text} (h : digits.all Char.isDigit = true) :
    namePhrase.extent 0 digits = digits.length := by
  induction digits with
  | nil => rfl
  | cons c digits ih =>
      rw [List.all_cons, Bool.and_eq_true] at h
      obtain ⟨hslash, hbody, hfree⟩ := namePhrase_digit h.1 digits
      rw [Phrase.extent_cons, beq_eq_false_iff_ne.mpr hslash, hbody, hfree, ih h.2]
      simp [Nat.add_comm]

/-- A row of digits is a name. -/
theorem IsName.of_digits {digits : Text} (hdigits : digits ≠ [])
    (hall : digits.all Char.isDigit = true) : IsName digits := by
  refine ⟨hdigits, ?_⟩
  have hextent := namePhrase_extent_digits hall
  obtain ⟨c, s, rfl⟩ := List.exists_cons_of_ne_nil hdigits
  obtain ⟨_, hbody, hfree⟩ := namePhrase_digit (List.all_eq_true.mp hall c List.mem_cons_self) s
  have hbegins : namePhrase.beginsAt (c :: s) = true := by
    simp [Phrase.beginsAt, hbody, hfree]
  rw [Phrase.length, if_pos hbegins, hextent]

/-- A reference is printed as its expression, its index and its fields. -/
theorem Reference.canonical_eq (reference : Reference) (u : Text) :
    reference.canonical ++ u = '(' :: (reference.expression.canonical ++ ')' :: '[' ::
      (Text.ofInt reference.index ++ ']' :: (reference.fields.flatMap (·.fieldSource) ++ u))) := by
  simp [Reference.canonical, Identifier.fieldSource]

/-- A mark that has to stand ahead is consumed before what follows. -/
theorem mark_reads {α : Type} {mode : Mode} {mark : Char} {error : Token → SyntaxError}
    {k : Token → Parser α} {s rest : Text} {post : α → Reader → Prop}
    (h : mode.Cuts s .punct [mark] rest) (hk : ∀ token, Reads (k token) rest post) :
    Reads (peek mode >>= fun token =>
      if (!token.isPunct mark) = true then fail (error token) >>= fun (_ : PUnit) =>
        advance mode >>= fun _ => k token
      else advance mode >>= fun _ => k token) s post := by
  refine (peek_reads h).bind fun token htoken => ?_
  rw [if_neg (by simp [isPunct_eq htoken])]
  exact (advance_reads h (by decide)).bind fun _ _ => hk token

/-- A reference that is printed is read again. -/
theorem reference_reads {reference : Reference} (h : reference.Written) {u x : Text}
    {kind : TokenKind} (hu : NameStops u kind x) (hdot : kind = .punct → x ≠ ['.']) :
    Reads Grammar.reference (reference.canonical ++ u)
      fun found r => found.bare = reference.bare ∧ r.At u := by
  obtain ⟨digits, value, hspells, hdigits, hvalue, hindex⟩ := h.index
  have hagain := Numeral.natural_ofInt (hspells.ne_nil (by decide)) hdigits hvalue
  have hall := Text.ofInt_all_isDigit value
  have hname := IsName.of_digits (Text.ofInt_ne_nil value) hall
  have hcuts : ∀ v, Mode.declaration.Cuts (Text.ofInt value ++ ']' :: v) .ident (Text.ofInt value) (']' :: v) :=
    fun v => .of_scan (hname.scan (.mark (by simp) v)) rfl
  rw [Reference.canonical_eq, hindex]
  unfold Grammar.reference
  refine (expect_reads (cuts_mark (by simp) _)).bind fun opening _ => ?_
  refine (expression_reads h.expression (.mark (by simp) _) (by simp) (by simp)).bind
    fun expression hexpression => ?_
  refine mark_reads (cuts_mark (by simp) _) fun _ => ?_
  refine mark_reads (cuts_mark (by simp) _) fun _ => ?_
  refine (peek_reads (hcuts _)).bind ?_
  rintro index ⟨hkind, htext⟩
  rw [if_neg (by simp [hkind, htext, hall])]
  refine (advance_reads (hcuts _) (by decide)).bind fun _ _ => ?_
  refine mark_reads (cuts_mark (by simp) _) fun closing => ?_
  refine (fields_reads h.fields hu hdot).bind fun fields hfields => ?_
  rw [htext, hagain]
  refine reads_pure ?_
  simp [Reference.bare, Identifier.bareAll_eq_map, hexpression, hfields, hindex]

end DiagramText
