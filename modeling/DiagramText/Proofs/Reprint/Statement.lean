import DiagramText.Proofs.Reprint.Label
import DiagramText.Proofs.Reprint.Signature

/-!
# Statements that are printed are read again

The first line of an item that was read is one statement.  It ends with the end of
the line, or, where a bare literal needs it, before a closing brace or before a
comment that ends the line; in each case looking ahead comes to the end or to the
brace in both modes of the line (`LineEnds`).  The line on which a block is opened
is read up to the brace.
-/

namespace DiagramText

open Grammar Reader

/-! ## Ends of statements -/

/-- Both modes of the line come to the end of the source or to a closing brace, past these
remarks. -/
structure LineEnds (u : Text) (remarks : List Item) (rest : Text) : Prop where
  stops : rest = [] ∨ ∃ t, rest = '\x7d' :: t
  finds : ∀ mode : Mode, mode.IsLine → ∃ lexeme, mode.Finds u remarks false lexeme rest

/-- A line may end with the text. -/
theorem LineEnds.nil : LineEnds [] [] [] :=
  ⟨.inl rfl, fun _ _ => ⟨_, Mode.finds_nil⟩⟩

/-- A line may end before a closing brace. -/
theorem LineEnds.brace (t : Text) : LineEnds ('\x7d' :: t) [] ('\x7d' :: t) :=
  ⟨.inr ⟨t, rfl⟩, fun _ hmode => ⟨_, Mode.finds_brace hmode t⟩⟩

/-- A line may end with a comment. -/
theorem LineEnds.remark {item : Item} {x : Text} (h : IsRemark item)
    (hx : item.commentSource? = some x) : LineEnds x [item.bare] [] :=
  ⟨.inl rfl, fun _ hmode => ⟨_, .of_remark hmode h hx⟩⟩

namespace Reader

/-- The reader stands before the end of its line. -/
structure Ending (r : Reader) (remarks : List Item) (rest : Text) : Prop where
  sound : r.Sound
  lineBreak : r.lineBreak = false
  ends : ∃ later, r.remarks ++ later = remarks ∧ LineEnds r.text later rest

/-- The reader stands at the end of its line, and has passed these remarks. -/
structure Ended (r : Reader) (remarks : List Item) (rest : Text) : Prop where
  sound : r.Sound
  lineBreak : r.lineBreak = false
  text : r.text = rest
  remarks : r.remarks = remarks
  stops : rest = [] ∨ ∃ t, rest = '\x7d' :: t

variable {r : Reader} {mode : Mode} {u rest : Text} {remarks : List Item}

/-- A reader before the end of a line is at an ending. -/
theorem At.ending (h : r.At u) (hu : LineEnds u remarks rest) : r.Ending remarks rest := by
  refine ⟨h.sound, h.lineBreak, remarks, by simp [h.remarks], hu.stops, fun mode hmode => ?_⟩
  obtain ⟨lexeme, hfinds⟩ := hu.finds mode hmode
  refine ⟨lexeme, hfinds.congr ?_⟩
  rw [← mode.strip_unindent u, ← h.text, mode.strip_unindent]

/-- A reader that is past the end of a line is at an ending. -/
theorem Ended.ending (h : r.Ended remarks rest) : r.Ending remarks rest := by
  refine ⟨h.sound, h.lineBreak, [], by simp [h.remarks], ?_⟩
  rw [h.text]
  rcases h.stops with rfl | ⟨t, rfl⟩
  · exact .nil
  · exact .brace t

/-- A reader that passed no remarks stands at the text. -/
theorem Ended.at (h : r.Ended [] rest) : r.At rest :=
  ⟨h.sound, by rw [h.text], List.map_eq_nil_iff.mp h.remarks, h.lineBreak⟩

/-- The token at the end of a line: the end of the source or a closing brace. -/
def IsStop (token : Token) : Prop :=
  token.kind = .eof ∧ token.text = [] ∨ token.kind = .punct ∧ token.text = ['\x7d']

/-- Looking ahead to the end of the line passes the remarks. -/
theorem Ending.peek (h : r.Ending remarks rest) (hmode : mode.IsLine) :
    Ends (Reader.peek mode) r (fun token r' => IsStop token ∧ r'.Ended remarks rest)
      fun _ _ => False := by
  obtain ⟨later, hremarks, hends⟩ := h.ends
  obtain ⟨lexeme, hfinds⟩ := hends.finds mode hmode
  obtain ⟨token, r', hpeek, hsees⟩ := peek_of_finds h.sound hfinds
  obtain ⟨_, _, htext, hpassed, hbreak⟩ := hsees.of_finds hfinds
  refine (ends_of_ok hpeek).mpr ⟨?_, hsees.sound, ?_, htext, ?_, hends.stops⟩
  · obtain ⟨hscan, htoken⟩ := hsees.shows.scan hsees.sound
    rw [htext] at hscan htoken
    rcases hends.stops with rfl | ⟨t, rfl⟩
    · exact .inl ⟨(hsees.shows.eof_iff hsees.sound).mpr htext, by simpa using htoken⟩
    · have hbrace := (Mode.finds_brace hmode t).settled.2.2.1
      obtain ⟨hkind, hlength⟩ := Lexeme.mk.inj (Except.ok.inj (hscan.symm.trans hbrace))
      rw [hlength] at htoken
      exact .inr ⟨hkind, htoken⟩
  · rw [hbreak, h.lineBreak]
    rfl
  · rw [hpassed, hremarks]

/-- At an ending a look on the same line sees nothing that a statement could go on with. -/
theorem Ending.peekSameLine (h : r.Ending remarks rest) (hmode : mode.IsLine) :
    Ends (Reader.peekSameLine mode) r
      (fun seen r' => (∃ token, seen = some token ∧ IsStop token) ∧ r'.Ended remarks rest)
      fun _ _ => False := by
  refine (h.peek hmode).bind ?_
  rintro token r' ⟨hstop, hended⟩
  refine ends_bind.mpr (ends_get.mpr ?_)
  rw [hended.lineBreak]
  exact ⟨⟨token, rfl, hstop⟩, hended⟩

/-- At the end of the line only the closing brace is a mark. -/
theorem IsStop.isPunct {token : Token} (h : IsStop token) {mark : Char} (hmark : mark ≠ '\x7d') :
    token.isPunct mark = false := by
  rcases h with htoken | htoken
  · simp [isPunct_eq htoken]
  · simpa [isPunct_eq htoken] using Ne.symm hmark

/-- A statement that ends with its line needs no terminator. -/
theorem Ending.finish (h : r.Ending remarks rest) (wanted : Text) (others : List Text) :
    Ends (Grammar.finish wanted others) r (fun _ r' => r'.Ended remarks rest) fun _ _ => False := by
  unfold Grammar.finish
  refine (h.peek (.inl rfl)).bind ?_
  rintro token r' ⟨hstop, hended⟩
  have hterminator : token.kind ≠ .terminator := by
    rcases hstop with htoken | htoken <;> simp [htoken.1]
  rw [if_neg hterminator]
  refine ends_bind.mpr (ends_get.mpr ?_)
  rw [if_neg]
  · exact hended
  · rcases hstop with htoken | htoken
    · simp [htoken.1]
    · simp [isPunct_eq htoken]

end Reader

variable {u rest : Text} {remarks : List Item}

/-! ## Labels of declarations -/

/-- The source of a label after the colon. -/
def labelSource : Option Label → Text
  | none => []
  | some label => ' ' :: label.canonical

/-- The head of a declaration is its target, a colon and its label. -/
theorem Declaration.headSource_eq (d : Declaration) (u : Text) :
    d.headSource ++ u = d.target.canonical ++ ':' :: (labelSource d.label ++ u) := by
  unfold headSource labelSource
  cases d.label <;> simp

/-- What a label, or no label, may stand before. -/
def LabelEnds (label : Option Label) (u : Text) : Prop :=
  match label with
  | some label => label.Written ∧ label.EndsAt u
  | none => ∃ kind x rest, Mode.label.Cuts u kind x rest ∧
      (kind = .eof ∨ kind = .punct ∧ x = ['\x7b'])

/-- A label that is printed, or what follows where there is none, can be cut, and is no import. -/
theorem optionLabel_front {label : Option Label} (h : LabelEnds label u) :
    ∃ kind x rest, Mode.label.Cuts (labelSource label ++ u) kind x rest ∧ kind ≠ .importRef := by
  cases label with
  | none =>
      obtain ⟨kind, x, rest, hcuts, hkind⟩ := h
      refine ⟨kind, x, rest, hcuts, ?_⟩
      rcases hkind with rfl | ⟨rfl, _⟩ <;> decide
  | some label =>
      obtain ⟨kind, x, rest, hcuts, hkind⟩ := h.1.front h.2
      exact ⟨kind, x, rest, hcuts.space, hkind⟩

/-- A label that is printed is read again, and so is that there is none. -/
theorem optionLabel_reads {label : Option Label} (h : LabelEnds label u) :
    Reads Grammar.label (labelSource label ++ u)
      fun found r => found.map (·.bare) = label.map (·.bare) ∧ r.At u := by
  cases label with
  | none =>
      obtain ⟨kind, x, rest, hcuts, hkind⟩ := h
      unfold Grammar.label
      refine (peek_reads hcuts).bind fun token htoken => ?_
      have hmark : token.isPunct '[' = false := by
        rcases hkind with rfl | ⟨rfl, rfl⟩ <;> simp [isPunct_eq htoken]
      rcases hkind with rfl | ⟨rfl, _⟩ <;>
      · simp only [htoken.1, hmark]
        exact reads_pure rfl
  | some label =>
      refine Reads.space ((label_reads h.1 h.2).imp ?_)
      rintro found r ⟨⟨read, rfl, hread⟩, hat⟩
      exact ⟨by rw [Option.map_some, hread, Option.map_some], hat⟩

/-- After a colon the label is read, and the rest of the declaration after it. -/
theorem declarationAfterColon_reads {label : Option Label} (h : LabelEnds label u) {target : Target}
    {colon : Span} {goal : Statement → Reader → Prop}
    (hk : ∀ found : Option Label, found.map (·.bare) = label.map (·.bare) →
      Reads (declarationAfterLabel target colon found) u goal) :
    Reads (declarationAfterColon target colon) (labelSource label ++ u) goal := by
  obtain ⟨kind, x, rest, hcuts, himport⟩ := optionLabel_front h
  unfold declarationAfterColon
  refine (peekSameLine_reads hcuts).bind ?_
  rintro seen ⟨token, rfl, hkind, _⟩
  simp only [if_neg (hkind.symm ▸ himport : ¬ token.kind = .importRef)]
  exact (optionLabel_reads h).bind hk

/-- A declaration without a block is read again up to the end of its line. -/
theorem declarationAfterLabel_ends (hu : LineEnds u remarks rest) (target : Target) (colon : Span)
    (label : Option Label) :
    Reads (declarationAfterLabel target colon label) u fun read r =>
      (∃ span, read = .item (.declaration ⟨target, true, label, none, span⟩)) ∧
        r.Ended remarks rest := by
  intro r hr
  unfold declarationAfterLabel
  refine ((hr.ending hu).peekSameLine (.inr rfl)).bind ?_
  rintro seen r' ⟨⟨token, rfl, hstop⟩, hended⟩
  have hmark : ¬ isMark (some token) '\x7b' = true := by
    have : isMark (some token) '\x7b' = false := hstop.isPunct (by decide)
    simp [this]
  rw [if_neg hmark]
  cases label with
  | none =>
      refine (hended.ending.finish _ _).bind fun _ _ hended => ?_
      exact ⟨⟨_, rfl⟩, hended⟩
  | some label =>
      refine (hended.ending.finish _ _).bind fun _ _ hended => ?_
      exact ⟨⟨_, rfl⟩, hended⟩

/-- An opening brace is cut as a mark where a label is looked for. -/
theorem cuts_opening (w : Text) : Mode.label.Cuts ('\x7b' :: w) .punct ['\x7b'] w :=
  .of_scan (x := ['\x7b']) rfl rfl

/-- The token is an opening brace. -/
def IsOpening (token : Token) : Prop :=
  token.kind = .punct ∧ token.text = ['\x7b']

/-- A block that opens is read again up to its brace. -/
theorem declarationAfterLabel_opens {w : Text} (hu : Mode.label.Cuts u .punct ['\x7b'] w)
    (target : Target) (colon : Span) (label : Option Label) :
    Reads (declarationAfterLabel target colon label) u fun read r =>
      (∃ brace, IsOpening brace ∧ read = .opening target label brace) ∧ r.At w := by
  unfold declarationAfterLabel
  refine (peekSameLine_reads hu).bind ?_
  rintro seen ⟨token, rfl, htoken⟩
  rw [if_pos (isMark_of_text htoken)]
  unfold expect
  refine Reads.bind ((peek_reads hu).bind fun token htoken => ?_) fun brace hbrace =>
    reads_pure ⟨brace, hbrace, rfl⟩
  have hmark : token.isPunctOf [['\x7b']] = true := by
    have := isPunct_eq htoken '\x7b'
    simpa [Token.isPunct] using this
  rw [if_pos hmark]
  exact advance_reads hu (by decide)

/-! ## Targets -/

/-- What follows a target: nothing, or a colon. -/
def TargetEnds (t : Text) : Prop :=
  t = [] ∨ ∃ v, t = ':' :: v

/-- Behind a target no name goes on. -/
theorem TargetEnds.stops {t : Text} (h : TargetEnds t) :
    ∃ kind x, NameStops t kind x ∧ (kind = .punct → x ≠ ['.'] ∧ x ≠ ['(']) ∧ kind ≠ .connection := by
  rcases h with rfl | ⟨v, rfl⟩
  · exact ⟨_, _, .nil, by simp, by decide⟩
  · exact ⟨_, _, .mark (by simp) v, by simp, by decide⟩

/-- A statement begins with an import, a name or an opening parenthesis. -/
def IsLead (kind : TokenKind) (x : Text) : Prop :=
  kind = .importRef ∨ kind = .ident ∨ kind = .quoted ∨ kind = .punct ∧ x = ['(']

/-- The text begins with a token that a statement may begin with, and a statement is read from
it. -/
structure States (s : Text) (post : Statement → Reader → Prop) : Prop where
  lead : ∃ kind x rest, Mode.declaration.Cuts s kind x rest ∧ IsLead kind x
  reads : Reads statement s post

/-- Less may be said of a statement that is read again. -/
theorem States.imp {s : Text} {post post' : Statement → Reader → Prop} (h : States s post)
    (hpost : ∀ read r, post read r → post' read r) : States s post' :=
  ⟨h.lead, h.reads.imp hpost⟩

/-- The rest of a statement after the name it begins with. -/
def statementFrom (first : Identifier) : Parser Statement := do
  if isMark (← Reader.peekSameLine .declaration) '(' then
    let method ← methodFrom first
    finish lineEnd []
    return .item (.method method)
  else
    declarationFrom (.expression (← expressionFrom first))

/-- A statement that begins with a name reads the name, and the rest of the statement after it. -/
theorem states_name {name : Identifier} (h : name.Written) {t x : Text} {kind : TokenKind}
    (ht : NameStops t kind x) (hdot : kind = .punct → x ≠ ['.']) {goal : Statement → Reader → Prop}
    (hk : ∀ found : Identifier, found.bare = name.bare → Reads (statementFrom found) t goal) :
    States (name.canonical ++ t) goal := by
  obtain ⟨front, y, rest, hcuts, hfront⟩ := h.front ht.ends
  refine ⟨⟨_, _, _, hcuts, .inr (hfront.imp id .inl)⟩, ?_⟩
  unfold statement
  refine (peek_reads hcuts).bind fun token htoken => ?_
  have himport : token.kind ≠ .importRef := by
    rcases hfront with rfl | rfl <;> simp [htoken.1]
  have hparen : ¬ token.isPunct '(' = true := by
    rcases hfront with rfl | rfl <;> simp [isPunct_eq htoken]
  rw [if_neg himport, if_neg hparen]
  exact (identifier_reads h ht hdot).bind hk

/-- A statement about a target reads the target, and the rest of the declaration after it. -/
theorem states_target {target : Target} (h : target.Written) {t : Text} (ht : TargetEnds t)
    {goal : Statement → Reader → Prop}
    (hk : ∀ found : Target, found.bare = target.bare → Reads (declarationFrom found) t goal) :
    States (target.canonical ++ t) goal := by
  obtain ⟨kind, x, hstops, hmark, hconnection⟩ := ht.stops
  cases target with
  | reference reference =>
      have hreference : reference.Written := h
      have hcuts : ∃ v, Mode.declaration.Cuts (reference.canonical ++ t) .punct ['('] v := by
        rw [Reference.canonical_eq]
        exact ⟨_, cuts_mark (by simp) _⟩
      obtain ⟨v, hcuts⟩ := hcuts
      refine ⟨⟨_, _, _, hcuts, .inr (.inr (.inr ⟨rfl, rfl⟩))⟩, ?_⟩
      unfold statement
      refine (peek_reads hcuts).bind fun token htoken => ?_
      rw [if_neg (by simp [htoken.1]), if_pos (by simp [isPunct_eq htoken])]
      refine (reference_reads hreference hstops fun hpunct => (hmark hpunct).1).bind fun found hfound => ?_
      exact hk _ (congrArg Target.reference hfound)
  | expression expression =>
      have hexpression : expression.Written := h
      obtain ⟨kind', x', hstops', hmark'⟩ := hops_stop hexpression hstops hmark
      obtain ⟨_, hcuts⟩ := hstops'.ahead
      change States (expression.canonical ++ t) goal
      rw [Expression.canonical_eq hexpression, List.append_assoc]
      refine states_name hexpression.first hstops' (fun hpunct => (hmark' hpunct).1) fun first hfirst => ?_
      refine (peekSameLine_reads hcuts).bind ?_
      rintro seen ⟨token, rfl, htoken⟩
      rw [if_neg (not_isMark htoken fun hpunct => (hmark' hpunct).2)]
      refine (expressionFrom_reads hexpression hfirst hstops hmark hconnection).bind
        fun found hfound => ?_
      exact hk _ (congrArg Target.expression hfound)

/-- A declaration with a colon reads on after it. -/
theorem declarationFrom_reads_colon {target : Target} {t : Text} {goal : Statement → Reader → Prop}
    (hk : ∀ colon, Reads (declarationAfterColon target colon) t goal) :
    Reads (declarationFrom target) (':' :: t) goal := by
  have hcuts := cuts_colon t
  unfold declarationFrom
  refine (peekSameLine_reads hcuts).bind ?_
  rintro seen ⟨token, rfl, htoken⟩
  rw [if_pos (isMark_of_text htoken)]
  exact (advance_reads hcuts (by decide)).bind fun colon _ => hk colon.span

/-- A declaration without a colon is read again. -/
theorem declarationFrom_reads_nil (target : Target) :
    Reads (declarationFrom target) [] fun read r =>
      (∃ span, read = .item (.declaration ⟨target, false, none, none, span⟩)) ∧ r.Ended [] [] := by
  unfold declarationFrom
  refine (peekSameLine_reads (Mode.cuts_nil .declaration)).bind ?_
  rintro seen ⟨token, rfl, htoken⟩ r hr
  rw [if_neg (not_isMark htoken (by simp))]
  refine ((hr.ending .nil).finish _ _).bind fun _ _ hended => ?_
  exact ⟨⟨_, rfl⟩, hended⟩

/-! ## Imports -/

/-- The source of the import that a token stands for is the text of the token. -/
theorem canonical_importOf {token : Token} (h : IsImport token.text) :
    (importOf token).canonical = token.text := by
  obtain ⟨mark, path, rfl | rfl, _, _, htext⟩ := h
  · simp [importOf, Import.canonical, htext]
  · simp [importOf, Import.canonical, htext]

/-- The source of an import that was read is one import, and stands for it again. -/
theorem Import.Written.source {imported : Import} (h : imported.Written) :
    IsImport imported.canonical ∧
      ∀ token : Token, token.text = imported.canonical → (importOf token).bare = imported.bare := by
  obtain ⟨mode, token, hspells, rfl⟩ := h
  have himport := IsImport.of_spells hspells
  rw [canonical_importOf himport]
  refine ⟨himport, fun found hfound => ?_⟩
  simp only [importOf, Import.bare, hfound]

/-- An import that is printed is cut whole. -/
theorem IsImport.cuts {mode : Mode} (hmode : mode.IsLine) {x : Text} (h : IsImport x) :
    mode.Cuts x .importRef x [] := by
  have hcuts : mode.Cuts (x ++ []) .importRef x [] :=
    .of_scan (by rw [List.append_nil]; exact h.scan hmode) rfl
  rwa [List.append_nil] at hcuts

/-- A declaration with an import is read again. -/
theorem declarationAfterColon_reads_import {imported : Import} (h : imported.Written)
    (target : Target) (colon : Span) :
    Reads (declarationAfterColon target colon) imported.canonical fun read r =>
      (∃ found span, read = .item (.declaration ⟨target, true, none, some found, span⟩) ∧
        found.bare = imported.bare) ∧ r.Ended [] [] := by
  have hcuts := h.source.1.cuts (.inr rfl)
  unfold declarationAfterColon
  refine (peekSameLine_reads hcuts).bind ?_
  rintro seen ⟨token, rfl, hkind, htext⟩
  simp only [if_pos hkind]
  refine (advance_reads hcuts (by decide)).bind fun _ _ r hr => ?_
  refine ((hr.ending .nil).finish _ _).bind fun _ _ hended => ?_
  exact ⟨⟨_, _, rfl, h.source.2 token htext⟩, hended⟩

/-- An import is read again as a statement. -/
theorem states_import {imported : Import} (h : imported.Written) :
    States imported.canonical fun read r =>
      (∃ found, read = .item (.importing found) ∧ found.bare = imported.bare) ∧ r.Ended [] [] := by
  have hcuts := h.source.1.cuts (.inl rfl)
  refine ⟨⟨_, _, _, hcuts, .inl rfl⟩, ?_⟩
  unfold statement
  refine (peek_reads hcuts).bind ?_
  rintro token ⟨hkind, htext⟩
  rw [if_pos hkind]
  refine (advance_reads hcuts (by decide)).bind fun _ _ r hr => ?_
  refine ((hr.ending .nil).finish _ _).bind fun _ _ hended => ?_
  exact ⟨⟨_, rfl, h.source.2 token htext⟩, hended⟩

/-! ## Methods -/

/-- A method is read again as a statement. -/
theorem states_method {method : Method} (h : method.Written) :
    States method.canonical fun read r =>
      (∃ found, read = .item (.method found) ∧ found.bare = method.bare) ∧ r.Ended [] [] := by
  have hstops : NameStops (Argument.canonicalList method.arguments ++ method.returnsSource) .punct
      ['('] := .mark (by simp) _
  rw [method.canonical_eq]
  obtain ⟨_, hcuts⟩ := hstops.ahead
  refine states_name h.name hstops (by simp) fun name hname => ?_
  refine (peekSameLine_reads hcuts).bind ?_
  rintro seen ⟨token, rfl, htoken⟩
  rw [if_pos (isMark_of_text htoken)]
  refine (methodFrom_reads h hname).bind fun found hfound r hr => ?_
  refine ((hr.ending .nil).finish _ _).bind fun _ _ hended => ?_
  exact ⟨⟨_, rfl, hfound⟩, hended⟩

/-! ## Declarations -/

/-- What may follow the line of a declaration: its label may stand before it, and where there is
none nothing follows. -/
structure Declaration.EndsAt (d : Declaration) (u : Text) : Prop where
  label : ∀ label, d.label = some label → label.EndsAt u
  plain : d.label = none → u = []

/-- The label of a written declaration ends where the declaration does. -/
theorem labelEnds_of_endsAt {d : Declaration} (h : d.Written) (hu : d.EndsAt u) : LabelEnds d.label u := by
  cases hlabel : d.label with
  | none =>
      obtain rfl := hu.plain hlabel
      exact ⟨_, _, _, Mode.cuts_nil .label, .inl rfl⟩
  | some label => exact ⟨h.label label hlabel, hu.label label hlabel⟩

/-- A declaration is read again as a statement, with the comment behind it. -/
theorem states_declaration {d : Declaration} (h : d.Written) (hu : d.EndsAt u)
    (hends : LineEnds u remarks rest) :
    States (d.canonical ++ u) fun read r =>
      (∃ found, read = .item (.declaration found) ∧ found.bare = d.bare) ∧ r.Ended remarks rest := by
  obtain ⟨target, hasColon, label, imported, span⟩ := d
  have hnil : u = [] → remarks = [] ∧ rest = [] := by
    rintro rfl
    obtain ⟨_, hfinds⟩ := hends.finds .declaration (.inl rfl)
    obtain ⟨rfl, _, _, rfl⟩ := hfinds.unique Mode.finds_nil
    exact ⟨rfl, rfl⟩
  cases imported with
  | some imported =>
      obtain rfl : label = none := h.single (by simp)
      obtain rfl := hu.plain rfl
      obtain ⟨rfl, rfl⟩ := hnil rfl
      obtain rfl : hasColon = true := by
        cases hasColon with
        | false => cases (h.colon rfl).2
        | true => rfl
      have hsource : Declaration.canonical ⟨target, true, none, some imported, span⟩ ++ [] =
          target.canonical ++ ':' :: ' ' :: imported.canonical := by
        simp [Declaration.canonical]
      rw [hsource]
      refine states_target h.target (.inr ⟨_, rfl⟩) fun found hfound => ?_
      refine declarationFrom_reads_colon fun colon => Reads.space ?_
      refine (declarationAfterColon_reads_import (h.imported imported rfl) found colon).imp ?_
      rintro read r ⟨⟨imported', span', rfl, himported⟩, hended⟩
      exact ⟨⟨_, rfl, by simp [Declaration.bare, hfound, himported]⟩, hended⟩
  | none =>
      cases hasColon with
      | true =>
          change States (Declaration.headSource _ ++ u) _
          rw [Declaration.headSource_eq]
          refine states_target h.target (.inr ⟨_, rfl⟩) fun found hfound => ?_
          refine declarationFrom_reads_colon fun colon => ?_
          refine declarationAfterColon_reads (labelEnds_of_endsAt h hu) fun label' hlabel => ?_
          refine (declarationAfterLabel_ends hends found colon label').imp ?_
          rintro read r ⟨⟨span', rfl⟩, hended⟩
          exact ⟨⟨_, rfl, by simp [Declaration.bare, hfound, hlabel]⟩, hended⟩
      | false =>
          obtain rfl : label = none := (h.colon rfl).1
          obtain rfl := hu.plain rfl
          obtain ⟨rfl, rfl⟩ := hnil rfl
          change States (target.canonical ++ []) _
          refine states_target h.target (.inl rfl) fun found hfound => ?_
          refine (declarationFrom_reads_nil found).imp ?_
          rintro read r ⟨⟨span', rfl⟩, hended⟩
          exact ⟨⟨_, rfl, by simp [Declaration.bare, hfound]⟩, hended⟩

/-- The line on which a block is opened is read up to the brace. -/
theorem states_opening {d : Declaration} (h : d.Written) (w : Text) :
    States (d.openingSource ++ w) fun read r =>
      (∃ target label brace, read = .opening target label brace ∧ target.bare = d.target.bare ∧
        label.map (·.bare) = d.label.map (·.bare) ∧ IsOpening brace) ∧ r.At w := by
  obtain ⟨v, hsource, hcuts, hends⟩ : ∃ v, d.openingSource ++ w = d.headSource ++ v ∧
      Mode.label.Cuts v .punct ['\x7b'] w ∧ LabelEnds d.label v := by
    have hcuts := cuts_opening w
    by_cases hbare : d.hasBareLiteral = true
    · refine ⟨'\x7b' :: w, by simp [Declaration.openingSource, hbare], hcuts, ?_⟩
      cases hlabel : d.label with
      | none => exact ⟨_, _, _, hcuts, .inr ⟨rfl, rfl⟩⟩
      | some label =>
          have hliteral : label.isBareLiteral = true := by
            simpa [Declaration.hasBareLiteral, hlabel] using hbare
          exact ⟨h.label label hlabel, Label.endsAt_glued hliteral (by simp) w⟩
    · refine ⟨' ' :: '\x7b' :: w, by simp [Declaration.openingSource, hbare], hcuts.space, ?_⟩
      cases hlabel : d.label with
      | none => exact ⟨_, _, _, hcuts.space, .inr ⟨rfl, rfl⟩⟩
      | some label =>
          have hliteral : label.isBareLiteral = false := by
            simpa [Declaration.hasBareLiteral, hlabel] using hbare
          have hwritten := h.label label hlabel
          exact ⟨hwritten, hwritten.endsAt hliteral (.inr ⟨w, rfl⟩)⟩
  rw [hsource, Declaration.headSource_eq]
  refine states_target h.target (.inr ⟨_, rfl⟩) fun target htarget => ?_
  refine declarationFrom_reads_colon fun colon => ?_
  refine declarationAfterColon_reads hends fun label hlabel => ?_
  refine (declarationAfterLabel_opens hcuts target colon label).imp ?_
  rintro read r ⟨⟨brace, hbrace, rfl⟩, hat⟩
  exact ⟨⟨target, label, brace, rfl, htarget, hlabel, hbrace⟩, hat⟩

/-! ## Leaves -/

/-- What the line of an item stands before: the end, or, where the item needs it, a closing brace or
a comment. -/
inductive Item.LineEnd (item : Item) : Text → List Item → Text → Prop
  | nil (free : item.needsGlue = false) : LineEnd item [] [] []
  | brace (glued : item.needsGlue = true) : LineEnd item ['\x7d'] [] ['\x7d']
  | remark {next : Item} {x : Text} (glued : item.needsGlue = true) (remark : IsRemark next)
      (source : next.commentSource? = some x) : LineEnd item x [next.bare] []

/-- The line of an item that needs nothing after it stands before the end. -/
theorem Item.LineEnd.of_free {item : Item} (h : item.LineEnd u remarks rest)
    (hfree : item.needsGlue = false) : u = [] ∧ remarks = [] ∧ rest = [] := by
  cases h with
  | nil => exact ⟨rfl, rfl, rfl⟩
  | brace glued =>
      rw [hfree] at glued
      cases glued
  | remark glued =>
      rw [hfree] at glued
      cases glued

/-- The source of a remark begins with a number sign or a quotation mark. -/
theorem IsRemark.source_front {item : Item} {x : Text} (h : IsRemark item)
    (hx : item.commentSource? = some x) :
    ∃ c t, x = c :: t ∧ c ∈ ['\x7b', '\x7d', '#', '\x22'] := by
  cases h with
  | line => exact ⟨_, _, (Option.some.inj hx).symm, by simp⟩
  | block => exact ⟨_, _, (Option.some.inj hx).symm, by simp⟩

/-- The label of a declaration may stand before the end of its line. -/
theorem Declaration.Written.endsAt {d : Declaration} (h : d.Written)
    (hu : Item.LineEnd (.declaration d) u remarks rest) : d.EndsAt u := by
  constructor
  · intro label hlabel
    have hneeds : (Item.declaration d).needsGlue = label.isBareLiteral := by
      simp [Item.needsGlue, Declaration.hasBareLiteral, hlabel]
    cases hu with
    | nil free => exact (h.label label hlabel).endsAt (hneeds ▸ free) (.inl rfl)
    | brace glued => exact Label.endsAt_glued (hneeds ▸ glued) (by simp) []
    | remark glued remark source =>
        obtain ⟨c, t, rfl, hc⟩ := remark.source_front source
        exact Label.endsAt_glued (hneeds ▸ glued) hc t
  · intro hlabel
    have hfree : (Item.declaration d).needsGlue = false := by
      simp [Item.needsGlue, Declaration.hasBareLiteral, hlabel]
    exact (hu.of_free hfree).1

/-- The line of an item that is handed over whole is read as that item. -/
theorem states_leaf {maxDepth : Int} {depth : Nat} {item : Item}
    (h : item.Written maxDepth depth) (hleaf : item.isLeaf = true) (hu : item.LineEnd u remarks rest) :
    States (item.firstLine ++ u) fun read r =>
      (∃ found, read = .item found ∧ found.bare = item.bare) ∧ r.Ended remarks rest := by
  have hends : LineEnds u remarks rest := by
    cases hu with
    | nil => exact .nil
    | brace => exact .brace []
    | remark _ remark source => exact .remark remark source
  cases h with
  | comment =>
      unfold commentItem at hleaf
      split at hleaf <;> cases hleaf
  | container => cases hleaf
  | importing written =>
      obtain ⟨rfl, rfl, rfl⟩ := hu.of_free rfl
      rw [List.append_nil]
      refine (states_import written).imp ?_
      rintro read r ⟨⟨found, rfl, hfound⟩, hended⟩
      exact ⟨⟨_, rfl, congrArg Item.importing hfound⟩, hended⟩
  | method written =>
      obtain ⟨rfl, rfl, rfl⟩ := hu.of_free rfl
      rw [List.append_nil]
      refine (states_method written).imp ?_
      rintro read r ⟨⟨found, rfl, hfound⟩, hended⟩
      exact ⟨⟨_, rfl, congrArg Item.method hfound⟩, hended⟩
  | @declaration _ d written =>
      refine (states_declaration written (written.endsAt hu) hends).imp ?_
      rintro read r ⟨⟨found, rfl, hfound⟩, hended⟩
      exact ⟨⟨_, rfl, congrArg Item.declaration hfound⟩, hended⟩

end DiagramText
