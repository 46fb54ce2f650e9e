import DiagramText.Canonical
import DiagramText.Proofs.Lexeme.Scan
import DiagramText.Proofs.Reader.Progress

/-!
# What the grammar reads

The programs of the grammar consume what they read, return names, labels and
signatures that are written as some scan allows, and never run out of turns.
`Written` says of each part of a tree how it is written; one specification for
each program says that what it returns is written so, and that the reader is
past it.
-/

namespace DiagramText

open Grammar Reader

/-- A name or a field as it is read, without fields of its own. -/
inductive Identifier.IsPart : Identifier → Prop
  | bare {name : Text} {span : Span} (spelled : Mode.declaration.Spells .ident name) :
      IsPart ⟨name, none, [], span⟩
  | quoted {text : Text} {span : Span} (spelled : Mode.declaration.Spells .quoted text) :
      IsPart ⟨(Text.unquote? text).getD [], text.head?.bind QuoteMark.ofChar?, [], span⟩

/-- A part with any span is a part. -/
theorem Identifier.IsPart.respan {identifier : Identifier} (h : identifier.IsPart) (span : Span) :
    ({ identifier with span } : Identifier).IsPart := by
  cases h with
  | bare spelled => exact .bare spelled
  | quoted spelled => exact .quoted spelled

/-- A part has no fields. -/
theorem Identifier.IsPart.fields {identifier : Identifier} (h : identifier.IsPart) :
    identifier.fields = [] := by
  cases h <;> rfl

/-- The name and its fields are parts. -/
structure Identifier.Written (identifier : Identifier) : Prop where
  head : ({ identifier with fields := [] } : Identifier).IsPart
  fields : ∀ field ∈ identifier.fields, field.IsPart

/-- The names are written, and so are the connections, one before each further name. -/
structure Expression.Written (expression : Expression) : Prop where
  first : expression.first.Written
  others : ∀ identifier ∈ expression.others, identifier.Written
  connections : ∀ connection ∈ expression.connections,
    Mode.declaration.Spells .connection connection.op
  count : expression.connections.length = expression.others.length

/-- The index is the value of a row of digits. -/
structure Reference.Written (reference : Reference) : Prop where
  expression : reference.expression.Written
  index : ∃ digits value, Mode.declaration.Spells .ident digits ∧ digits.all Char.isDigit = true ∧
    Numeral.natural digits = .ok value ∧ reference.index = value
  fields : ∀ field ∈ reference.fields, field.IsPart

/-- The expression or reference is written. -/
def Target.Written : Target → Prop
  | .expression e => e.Written
  | .reference r => r.Written

/-- The label is what one of its forms stands for. -/
inductive Label.Written : Label → Prop
  | code {text : Text} {parts : CodeParts} {span : Span}
      (spelled : Mode.label.Spells .codeBlock text)
      (parted : CodeParts.ofText? text = some (.ok parts)) : Written (.code parts span)
  | number {raw : Text} {value : Scalar} {span : Span} (spelled : Mode.label.Spells .number raw)
      (valued : ∀ r, numberValue raw r = .ok value r) : Written (.scalar value raw span)
  | boolean {raw : Text} {span : Span} (spelled : Mode.label.Spells .boolean raw) :
      Written (.scalar (.boolean (raw == "true".toList)) raw span)
  | quoted {raw : Text} {span : Span} (spelled : Mode.label.Spells .quoted raw) :
      Written (.scalar (.quoted ((Text.unquote? raw).getD [])) raw span)
  | text {raw : Text} {span : Span} (spelled : Mode.label.Spells .text raw) :
      Written (.scalar (.text raw) raw span)
  | constraints {names : List Text} {span : Span} (some : names ≠ [])
      (spelled : ∀ name ∈ names, Mode.constraints.Spells .ident name) :
      Written (.constraints names span)

/-- The import is what a token stands for. -/
def Import.Written (imported : Import) : Prop :=
  ∃ (mode : Mode) (token : Token),
    mode.Spells .importRef token.text ∧ imported = importOf token

/-- The name is a plain word, the type a word of the list. -/
structure Argument.Written (argument : Argument) : Prop where
  name : argument.name ≠ [] ∧ argument.name.all isPlainWord = true
  type : ∀ type, argument.type = some type → Mode.arguments.Spells .ident type

/-- Either all of the arguments have types or none has. -/
structure Argument.AllWritten (arguments : List Argument) : Prop where
  each : ∀ argument ∈ arguments, argument.Written
  alike : (∀ argument ∈ arguments, argument.type = none) ∨
    ∀ argument ∈ arguments, argument.type ≠ none

/-- The name, the arguments and the results are written. -/
structure Method.Written (method : Method) : Prop where
  name : method.name.Written
  arguments : Argument.AllWritten method.arguments
  returns : ∀ returns, method.returns = some returns → Argument.AllWritten returns

/-- The parts of the declaration are written; only after a colon it has a label or an import, and
not both. -/
structure Declaration.Written (declaration : Declaration) : Prop where
  target : declaration.target.Written
  label : ∀ label, declaration.label = some label → label.Written
  imported : ∀ imported, declaration.imported = some imported → imported.Written
  colon : declaration.hasColon = false → declaration.label = none ∧ declaration.imported = none
  single : declaration.imported ≠ none → declaration.label = none

/-- Each item that has to be followed by something on its line is followed by a comment, or is the
last before a brace if the list is closed by one. -/
def Item.Glued (closing : Bool) : List Item → Prop
  | [] => True
  | [item] => item.needsGlue = true → closing = true
  | item :: next :: others =>
    (item.needsGlue = true → next.isComment = true) ∧ Glued closing (next :: others)

/-- Whether the item is what a statement hands over whole: an import, a method, or a declaration
without a block. -/
def Item.isLeaf : Item → Bool
  | .importing _ => true
  | .method _ => true
  | .declaration _ => true
  | _ => false

/-- An item without a block that is no comment is an import, a method or a declaration. -/
theorem Item.cases_of_isLeaf {item : Item} (h : item.isLeaf = true) :
    (∃ imported, item = .importing imported) ∨ (∃ method, item = .method method) ∨
      ∃ declaration, item = .declaration declaration := by
  cases item with
  | importing imported => exact .inl ⟨imported, rfl⟩
  | method method => exact .inr (.inl ⟨method, rfl⟩)
  | declaration declaration => exact .inr (.inr ⟨declaration, rfl⟩)
  | _ => cases h

/-- An import, a method or a declaration is no comment. -/
theorem Item.isComment_of_isLeaf {item : Item} (h : item.isLeaf = true) : item.isComment = false := by
  obtain ⟨_, rfl⟩ | ⟨_, rfl⟩ | ⟨_, rfl⟩ := cases_of_isLeaf h <;> rfl

/-- The item is written, and blocks stand in it as deep as the limit allows. -/
inductive Item.Written (maxDepth : Int) : (depth : Nat) → Item → Prop
  | comment {depth : Nat} {token : Token} (comment : token.IsComment) :
      Written maxDepth depth (commentItem token)
  | importing {depth : Nat} {imported : Import} (written : imported.Written) :
      Written maxDepth depth (.importing imported)
  | method {depth : Nat} {method : Method} (written : method.Written) :
      Written maxDepth depth (.method method)
  | declaration {depth : Nat} {declaration : Declaration} (written : declaration.Written) :
      Written maxDepth depth (.declaration declaration)
  | container {depth : Nat} {declaration : Declaration} {mark : BlockMark}
      {children : List Item} (written : declaration.Written)
      (colon : declaration.hasColon = true) (imported : declaration.imported = none)
      (closed : mark.closed = true) (deep : (depth + 1 : Nat) ≤ maxDepth)
      (within : ∀ item ∈ children, Written maxDepth (depth + 1) item) :
      Written maxDepth depth (.container declaration mark children)

/-- Where a literal cannot end, the text goes on with something that is neither blank nor a
semicolon. -/
theorem begins_of_not_isLiteralEnd {s : Text} (h : isLiteralEnd s = false) :
    s.Begins fun c => isBlank c = false ∧ c ≠ ';' := by
  cases s with
  | nil => cases h
  | cons c s => simpa [isLiteralEnd, Text.begins_cons] using h

namespace Reader

/-- A comment was passed, or neither a blank nor a semicolon stands between what was consumed and
what is ahead on its line. -/
def Tight (r : Reader) : Prop :=
  r.comments ≠ [] ∨ (isLiteralEnd r.text = false ∧ r.lineBreak = false)

/-- A comment was passed, or a closing brace stands right ahead. -/
def Glues (r : Reader) : Prop :=
  r.comments ≠ [] ∨ ∃ rest, r.text = '\x7d' :: rest

/-- Looking ahead leaves a tight reader tight: either nothing is passed over or a comment is. -/
theorem Sees.tight {r r' : Reader} {mode : Mode} {token : Token} (h : Sees mode r token r')
    (hmode : ∀ c, mode.skips c = isInlineBlank c) (hr : r.Tight) : r'.Tight := by
  obtain ⟨remarks, ends, hfinds, hremarks, hbreak⟩ := h.finds
  rcases hr with hcomments | ⟨hend, hline⟩
  · refine .inl fun hnone => hcomments ?_
    have : r.remarks ++ remarks = [] := by rw [← hremarks, Reader.remarks, hnone, List.map_nil]
    exact List.map_eq_nil_iff.mp (List.append_eq_nil_iff.mp this).1
  · generalize htext : r'.text = t at hfinds
    cases hfinds with
    | token scanned plain =>
        refine .inr ⟨?_, by rw [hbreak, hline]; rfl⟩
        rw [htext, Mode.strip_eq_self, hend]
        refine (begins_of_not_isLiteralEnd hend).imp fun c hc => ?_
        simp [hmode, isInlineBlank, hc.1]
    | comment scanned isComment later =>
        refine .inl fun hnone => ?_
        rw [Reader.remarks, hnone] at hremarks
        simp at hremarks

end Reader

/-- What a statement hands over is written, and what has to be followed on its line is. -/
def Grammar.Statement.Written (r : Reader) : Statement → Prop
  | .item read => (∀ maxDepth depth, read.Written maxDepth depth) ∧ (read.needsGlue = true → r.Glues)
  | .opening target label _ => target.Written ∧ ∀ found, label = some found → found.Written

namespace Grammar

variable {r : Reader}

/-! ## Names, expressions and references -/

/-- A part of a name is read from one token, bare or quoted. -/
theorem namePart_spec (hr : r.Sound) :
    Ends namePart r (fun part r' => r.Passes r' ∧ part.IsPart) Local := by
  unfold namePart
  refine (peek_keeps hr .declaration).bind ?_
  rintro token r' ⟨hkeeps, hshows⟩
  have hspells := hshows.spells hkeeps.sound
  have hpasses := fun hkind => hkeeps.passes (hshows.passes hkeeps.sound hkind)
  split
  · next hkind =>
      have hkind' : token.kind ≠ .eof := by simp [hkind]
      refine ends_bind.mpr (hshows.advance_spec hkind' ?_)
      exact ⟨hpasses hkind', .bare (hkind ▸ hspells)⟩
  · next hkind =>
      have hkind' : token.kind ≠ .eof := by simp [hkind]
      refine ends_bind.mpr (hshows.advance_spec hkind' ?_)
      exact ⟨hpasses hkind', .quoted (hkind ▸ hspells)⟩
  · simp [Local]

/-- A mark that is seen on the same line is ahead, and is consumed where it is. -/
theorem isMark_eq_true {seen : Option Token} {mark : Char} :
    isMark seen mark = true ↔ ∃ token, seen = some token ∧ token.isPunct mark = true := by
  cases seen <;> simp [isMark]

/-- One more field, if a dot stands ahead on the line. -/
def fieldStep : Parser (Option Identifier) := do
  if isMark (← peekSameLine .declaration) '.' then
    let _ ← advance .declaration
    return some (← namePart)
  else return none

theorem fields_eq : fields = many fieldStep := rfl

/-- A field is read as a part of a name, or only a look ahead is taken. -/
theorem fieldStep_spec (hr : r.Sound) :
    Ends fieldStep r
      (fun found r' => r.Keeps r' ∧ ∀ field, found = some field → r.Passes r' ∧ field.IsPart)
      Local := by
  unfold fieldStep
  refine (peekSameLine_keeps hr .declaration).bind ?_
  rintro seen r' ⟨hkeeps, hshows⟩
  rw [ends_ite]
  constructor
  · intro hmark
    obtain ⟨token, rfl, hdot⟩ := isMark_eq_true.mp hmark
    have hkind := Token.kind_ne_eof_of_isPunct hdot
    have hpasses := (hshows token rfl).passes hkeeps.sound hkind
    refine ends_bind.mpr ((hshows token rfl).advance_spec hkind ?_)
    refine (namePart_spec hpasses.sound).bind ?_
    rintro part r'' ⟨hlater, hpart⟩
    have hall := hkeeps.passes (hpasses.trans hlater.keeps)
    refine ⟨hall.keeps, ?_⟩
    intro found hfound
    exact ⟨hall, Option.some.inj hfound ▸ hpart⟩
  · intro _
    exact ⟨hkeeps, by simp⟩

/-- All fields that are read are parts of a name. -/
theorem fields_spec (hr : r.Sound) :
    Ends fields r (fun found r' => r.Keeps r' ∧ ∀ field ∈ found, field.IsPart) Local :=
  many_spec (fun _ => fieldStep_spec) hr

/-- A name is read with its fields. -/
theorem identifier_spec (hr : r.Sound) :
    Ends identifier r (fun name r' => r.Passes r' ∧ name.Written) Local := by
  unfold identifier
  refine (namePart_spec hr).bind ?_
  rintro head r' ⟨hpasses, hhead⟩
  refine (fields_spec hpasses.sound).bind ?_
  rintro fields r'' ⟨hkeeps, hfields⟩
  refine ⟨hpasses.trans hkeeps, ?_, hfields⟩
  have := hhead.fields
  have hpart := hhead.respan (head.span.cover (lastSpan head.span fields))
  rwa [← this]

/-- One more name, if the token that is seen is a connection. -/
def hopFrom : Option Token → Parser (Option (Connection × Identifier))
  | some token =>
    if token.kind = .connection then do
      let _ ← advance .declaration
      return some ((⟨token.text, token.span⟩ : Connection), ← identifier)
    else return none
  | none => return none

/-- One more name, if a connection stands ahead on the line. -/
def hopStep : Parser (Option (Connection × Identifier)) :=
  peekSameLine .declaration >>= hopFrom

theorem expressionFrom_eq (first : Identifier) :
    expressionFrom first = (many hopStep >>= fun hops =>
      let others := hops.map (·.2)
      return ⟨first, others, hops.map (·.1), first.span.cover (lastSpan first.span others)⟩) :=
  rfl

/-- A connection is read as it is spelled, with the name that it leads to. -/
theorem hopStep_spec (hr : r.Sound) :
    Ends hopStep r
      (fun found r' => r.Keeps r' ∧ ∀ hop, found = some hop → r.Passes r' ∧
        Mode.declaration.Spells .connection hop.1.op ∧ hop.2.Written) Local := by
  unfold hopStep
  refine (peekSameLine_keeps hr .declaration).bind ?_
  rintro seen r' ⟨hkeeps, hshows⟩
  cases seen with
  | none => exact ⟨hkeeps, by simp⟩
  | some token =>
      have hshows := hshows token rfl
      unfold hopFrom
      rw [ends_ite]
      constructor
      · intro hconnection
        have hkind : token.kind ≠ .eof := by simp [hconnection]
        have hpasses := hshows.passes hkeeps.sound hkind
        refine ends_bind.mpr (hshows.advance_spec hkind ?_)
        refine (identifier_spec hpasses.sound).bind ?_
        rintro name r'' ⟨hlater, hname⟩
        have hall := hkeeps.passes (hpasses.trans hlater.keeps)
        refine ⟨hall.keeps, ?_⟩
        rintro hop hhop
        obtain rfl := Option.some.inj hhop
        exact ⟨hall, hconnection ▸ hshows.spells hkeeps.sound, hname⟩
      · intro _
        exact ⟨hkeeps, by simp⟩

/-- The names after the first one are read with a connection before each. -/
theorem expressionFrom_spec {first : Identifier} (hfirst : first.Written) (hr : r.Sound) :
    Ends (expressionFrom first) r
      (fun expression r' => r.Keeps r' ∧ expression.Written) Local := by
  rw [expressionFrom_eq]
  refine (many_spec (fun _ => hopStep_spec) hr).bind ?_
  rintro hops r' ⟨hkeeps, hhops⟩
  refine ⟨hkeeps, hfirst, ?_, ?_, by simp⟩
  · intro name hname
    obtain ⟨hop, hmem, rfl⟩ := List.mem_map.mp hname
    exact (hhops hop hmem).2
  · intro connection hconnection
    obtain ⟨hop, hmem, rfl⟩ := List.mem_map.mp hconnection
    exact (hhops hop hmem).1

/-- An expression is read, and something is consumed. -/
theorem expression_spec (hr : r.Sound) :
    Ends expression r (fun expression r' => r.Passes r' ∧ expression.Written) Local := by
  unfold expression
  refine (identifier_spec hr).bind ?_
  rintro first r' ⟨hpasses, hfirst⟩
  refine (expressionFrom_spec hfirst hpasses.sound).imp ?_
  rintro expression r'' ⟨hkeeps, hexpression⟩
  exact ⟨hpasses.trans hkeeps, hexpression⟩

/-- A reference is read, and its index is a row of digits. -/
theorem reference_spec (hr : r.Sound) :
    Ends reference r (fun reference r' => r.Passes r' ∧ reference.Written) Local := by
  unfold reference
  refine (expect_passes hr .declaration ['(']).bind ?_
  rintro opening r₁ ⟨h₁, _⟩
  refine (expression_spec h₁.sound).bind ?_
  rintro expression r₂ ⟨h₂, hexpression⟩
  refine ends_mark h₂.sound (by simp [Local]) fun _ r₃ h₃ => ?_
  refine ends_mark h₃.sound (by simp [Local]) fun _ r₄ h₄ => ?_
  refine (peek_keeps h₄.sound .declaration).bind ?_
  rintro index r₅ ⟨h₅, hshows⟩
  refine ends_guard (fun _ => by simp [Local]) fun hguard => ?_
  have hdigits := Token.of_not_badIndex hguard
  have hkind : index.kind ≠ .eof := by simp [hdigits.1]
  refine ends_bind.mpr (hshows.advance_spec hkind ?_)
  have h₆ := hshows.passes h₅.sound hkind
  refine ends_mark h₆.sound (by simp [Local]) fun closing r₇ h₇ => ?_
  refine (fields_spec h₇.sound).bind ?_
  rintro fields r₈ ⟨h₈, hfields⟩
  have hpasses := h₁.trans (h₂.keeps.trans (h₃.keeps.trans (h₄.keeps.trans (h₅.trans
    (h₆.keeps.trans (h₇.keeps.trans h₈))))))
  split
  · simp [Local]
  · next value hvalue =>
      exact ⟨hpasses, hexpression,
        ⟨index.text, value, hdigits.1 ▸ hshows.spells h₅.sound, hdigits.2, hvalue, rfl⟩, hfields⟩

/-! ## Labels -/

/-- The value of a number is found without reading on, and is an integer or a float. -/
theorem numberValue_spec (raw : Text) (r : Reader) :
    Ends (numberValue raw) r
      (fun value r' => r' = r ∧ (∀ r, numberValue raw r = .ok value r) ∧
        ((∃ n, value = .integer n) ∨ ∃ x, value = .float x)) Local := by
  by_cases hpoint : raw.contains '.' = true
  · simp only [numberValue, if_pos hpoint, ends_pure]
    exact ⟨trivial, fun _ => rfl, .inr ⟨_, rfl⟩⟩
  · cases hvalue : Numeral.integer raw with
    | ok value =>
        simp only [numberValue, if_neg hpoint, hvalue, ends_pure]
        exact ⟨trivial, fun _ => rfl, .inl ⟨_, rfl⟩⟩
    | error digits =>
        simp only [numberValue, if_neg hpoint, hvalue, ends_throw, Local]
        simp

/-- A constraint is read as one word, and a separator behind it is consumed. -/
theorem constraintName_spec (hr : r.Sound) (others : List Text) :
    Ends (constraintName others) r
      (fun name r' => r.Passes r' ∧ Mode.constraints.Spells .ident name) Local := by
  unfold constraintName
  refine (peek_keeps hr .constraints).bind ?_
  rintro token r₁ ⟨h₁, hshows⟩
  refine ends_guard (fun _ => by simp [Local]) fun hident => ?_
  have hident : token.kind = .ident := by simpa using hident
  have hkind : token.kind ≠ .eof := by simp [hident]
  have hspells := hident ▸ hshows.spells h₁.sound
  refine ends_bind.mpr (hshows.advance_spec hkind ?_)
  have h₂ := h₁.passes (hshows.passes h₁.sound hkind)
  refine (peek_keeps h₂.sound .constraints).bind ?_
  rintro next r₃ ⟨h₃, hnext⟩
  refine ends_ite.mpr ⟨fun hmark => ?_, fun _ => ⟨h₂.trans h₃, hspells⟩⟩
  have hkind := Token.kind_ne_eof_of_isPunct hmark
  refine ends_bind.mpr (hnext.advance_spec hkind ?_)
  exact ⟨h₂.trans (h₃.passes (hnext.passes h₃.sound hkind)).keeps, hspells⟩

/-- One more constraint, unless the closing bracket stands ahead. -/
def constraintStep : Parser (Option Text) := do
  if (← peek .constraints).isPunct ']' then return none
  else return some (← constraintName ["']'".toList])

theorem constraints_eq :
    constraints = (expect .label ['['] >>= fun opening =>
      constraintName [] >>= fun first =>
      many constraintStep >>= fun others =>
      advance .constraints >>= fun closing =>
      pure (.constraints (first :: others) (opening.span.cover closing.span))) :=
  rfl

/-- A further constraint is read as one word, or only a look ahead is taken. -/
theorem constraintStep_spec (hr : r.Sound) :
    Ends constraintStep r
      (fun found r' => r.Keeps r' ∧ ∀ name, found = some name → r.Passes r' ∧
        Mode.constraints.Spells .ident name) Local := by
  unfold constraintStep
  refine (peek_keeps hr .constraints).bind ?_
  rintro token r' ⟨hkeeps, _⟩
  refine ends_ite.mpr ⟨fun _ => ⟨hkeeps, by simp⟩, fun _ => ?_⟩
  refine (constraintName_spec hkeeps.sound _).bind ?_
  rintro name r'' ⟨hpasses, hname⟩
  have hall := hkeeps.passes hpasses
  exact ⟨hall.keeps, fun _ hfound => ⟨hall, Option.some.inj hfound ▸ hname⟩⟩

/-- Constraints are read up to their closing bracket, and are no bare literal. -/
theorem constraints_spec (hr : r.Sound) :
    Ends constraints r (fun label r' =>
      r.Passes r' ∧ label.Written ∧ label.isBareLiteral = false) Local := by
  rw [constraints_eq]
  refine (expect_passes hr .label ['[']).bind ?_
  rintro opening r₁ ⟨h₁, _⟩
  refine (constraintName_spec h₁.sound []).bind ?_
  rintro first r₂ ⟨h₂, hfirst⟩
  refine (many_spec (fun _ => constraintStep_spec) h₂.sound).bind ?_
  rintro others r₃ ⟨h₃, hothers⟩
  refine (advance_keeps h₃.sound .constraints).bind ?_
  rintro closing r₄ ⟨h₄, _⟩
  refine ⟨h₁.trans (h₂.keeps.trans (h₃.trans h₄)), .constraints (by simp) ?_, rfl⟩
  simpa [hfirst] using hothers

/-- A label that is one token is consumed. -/
theorem labelToken_spec {token : Token} {label : Label} {r' : Reader} (h : r.Keeps r')
    (hshows : r'.Shows .label token) (hkind : token.kind ≠ .eof) (hlabel : label.Written)
    (htight : label.isBareLiteral = true → r'.consumed.Tight) :
    Ends (advance .label >>= fun _ => (pure (some label) : Parser (Option Label))) r'
      (fun found r' => r.Keeps r' ∧ ∀ label, found = some label →
        label.Written ∧ (label.isBareLiteral = true → r'.Tight)) Local := by
  refine ends_bind.mpr (hshows.advance_spec hkind ?_)
  refine ⟨(h.passes (hshows.passes h.sound hkind)).keeps, ?_⟩
  intro found hfound
  exact Option.some.inj hfound ▸ ⟨hlabel, htight⟩

/-- A label is read in one of its forms, and where it is a bare literal the text after it is tight. -/
theorem label_spec (hr : r.Sound) :
    Ends label r
      (fun found r' => r.Keeps r' ∧ ∀ label, found = some label →
        label.Written ∧ (label.isBareLiteral = true → r'.Tight)) Local := by
  unfold label
  refine (peek_keeps hr .label).bind ?_
  rintro token r₁ ⟨h₁, hshows⟩
  have hspells := hshows.spells h₁.sound
  split
  · next hkind =>
      have hkind' : token.kind ≠ .eof := by simp [hkind]
      refine ends_bind.mpr (hshows.advance_spec hkind' ?_)
      have hpasses := h₁.passes (hshows.passes h₁.sound hkind')
      split
      · next parts hparts =>
          refine ⟨hpasses.keeps, ?_⟩
          intro label hlabel
          exact Option.some.inj hlabel ▸ ⟨.code (hkind ▸ hspells) hparts, fun h => by cases h⟩
      · simp [Local]
      · exact ⟨hpasses.keeps, by simp⟩
  · next hkind =>
      have hkind' : token.kind ≠ .eof := by simp [hkind]
      refine ends_bind.mpr (hshows.advance_spec hkind' ?_)
      refine (numberValue_spec token.text _).bind ?_
      rintro value r₂ ⟨rfl, hvalue, hnumber⟩
      refine ⟨(h₁.passes (hshows.passes h₁.sound hkind')).keeps, ?_⟩
      intro label hlabel
      obtain rfl := Option.some.inj hlabel
      refine ⟨.number (hkind ▸ hspells) hvalue, ?_⟩
      rcases hnumber with ⟨n, rfl⟩ | ⟨x, rfl⟩ <;> exact fun h => by cases h
  · next hkind =>
      exact labelToken_spec h₁ hshows (by simp [hkind]) (.boolean (hkind ▸ hspells)) 
        fun h => by cases h
  · next hkind =>
      exact labelToken_spec h₁ hshows (by simp [hkind]) (.quoted (hkind ▸ hspells)) 
        fun h => by cases h
  · next hkind =>
      refine labelToken_spec h₁ hshows (by simp [hkind]) (.text (hkind ▸ hspells)) ?_
      intro hliteral
      have hscan := (hshows.scan h₁.sound).1
      rw [hshows.text_eq_append h₁.sound, hkind] at hscan
      exact .inr ⟨Mode.not_isLiteralEnd_of_scan_text hscan hliteral, rfl⟩
  · refine ends_ite.mpr ⟨fun _ => ?_, fun _ => ⟨h₁, by simp⟩⟩
    refine (constraints_spec h₁.sound).bind ?_
    rintro label r₂ ⟨h₂, hlabel, hnames⟩
    refine ⟨(h₁.passes h₂).keeps, fun _ hfound => ?_⟩
    exact Option.some.inj hfound ▸ ⟨hlabel, fun h => absurd h (by simp [hnames])⟩

/-! ## Methods -/

namespace Segment

/-- The words of a segment were words of the list, and its name is a plain word. -/
def Written (segment : Segment) : Prop :=
  (segment.name.text ≠ [] ∧ segment.name.text.all isPlainWord = true) ∧
    ∀ name type, segment = .typed name type → Mode.arguments.Spells .ident type.text

/-- A segment is one word, or two of which the second is the type; its first word is a plain
one. -/
theorem ofWords_eq_ok {opening : Span} {words : List Token} {segment : Segment} :
    ofWords opening words = .ok segment ↔
      (segment.name.text ≠ [] ∧ segment.name.text.all isPlainWord = true) ∧
        ((∃ name, words = [name] ∧ segment = .bare name) ∨
          ∃ name type, words = [name, type] ∧ segment = .typed name type) := by
  constructor
  · intro h
    rcases words with _ | ⟨name, _ | ⟨type, _ | ⟨third, others⟩⟩⟩
    · cases h
    · simp only [ofWords] at h
      split at h
      · cases h
      · next hname =>
          obtain rfl := Except.ok.inj h
          exact ⟨by simpa [Segment.name] using hname, .inl ⟨name, rfl, rfl⟩⟩
    · simp only [ofWords] at h
      split at h
      · cases h
      · next hname =>
          obtain rfl := Except.ok.inj h
          exact ⟨by simpa [Segment.name] using hname, .inr ⟨name, type, rfl, rfl⟩⟩
    · cases h
  · rintro ⟨hname, ⟨name, rfl, rfl⟩ | ⟨name, type, rfl, rfl⟩⟩
    · have hcheck : ¬(name.text = [] ∨ (!name.text.all isPlainWord) = true) := by
        simpa [Segment.name] using hname
      simp only [ofWords, if_neg hcheck]
    · have hcheck : ¬(name.text = [] ∨ (!name.text.all isPlainWord) = true) := by
        simpa [Segment.name] using hname
      simp only [ofWords, if_neg hcheck]

/-- An argument that is made of words is written. -/
theorem written_of_ofWords {opening : Span} {words : List Token} {segment : Segment}
    (hwords : ∀ word ∈ words, Mode.arguments.Spells .ident word.text)
    (h : ofWords opening words = .ok segment) : segment.Written := by
  obtain ⟨hname, ⟨name, rfl, rfl⟩ | ⟨name, type, rfl, rfl⟩⟩ := ofWords_eq_ok.mp h
  · refine ⟨hname, ?_⟩
    rintro _ _ heq
    exact absurd heq (by simp)
  · refine ⟨hname, ?_⟩
    rintro _ _ heq
    obtain ⟨rfl, rfl⟩ := Segment.typed.inj heq
    exact hwords _ (by simp)

/-- Words that are no segment are a fault of the signature. -/
theorem ofWords_eq_error {opening : Span} {words : List Token} {error : SyntaxError}
    (h : ofWords opening words = .error error) : ∃ fault span, error = .badSignature fault span := by
  rcases words with _ | ⟨name, _ | ⟨type, _ | ⟨third, others⟩⟩⟩ <;> simp only [ofWords] at h
  · exact ⟨_, _, (Except.error.inj h).symm⟩
  · split at h
    · exact ⟨_, _, (Except.error.inj h).symm⟩
    · cases h
  · split at h
    · exact ⟨_, _, (Except.error.inj h).symm⟩
    · cases h
  · exact ⟨_, _, (Except.error.inj h).symm⟩

/-- The type of the first segment that has one. -/
def typeAhead : List Segment → Option Token
  | [] => none
  | .bare _ :: others => typeAhead others
  | .typed _ type :: _ => some type

/-- The arguments of segments some of which have types, by recursion: a bare name looks ahead for its
type, and after the last type there is none to take. -/
def shareTypes : List Segment → Except SyntaxError (List Argument)
  | [] => .ok []
  | .typed name type :: others =>
    (shareTypes others).map
      (⟨name.text, some type.text, name.span.cover type.span⟩ :: ·)
  | .bare name :: others =>
    match typeAhead others with
    | none => .error (.badSignature
        (.untyped (name.text :: others.map (·.name.text))) name.span)
    | some type => (shareTypes others).map (⟨name.text, some type.text, name.span⟩ :: ·)

/-- Bare names in front do not change which type is ahead. -/
theorem typeAhead_bare_append (pending : List Token) (segments : List Segment) :
    typeAhead (pending.map .bare ++ segments) = typeAhead segments := by
  induction pending with
  | nil => rfl
  | cons name pending ih => exact ih

/-- Bare names before a segment with a type share that type. -/
theorem shareTypes_bare_append (pending : List Token) (name type : Token) (others : List Segment) :
    shareTypes (pending.map .bare ++ .typed name type :: others) =
      (shareTypes others).map fun arguments =>
        pending.map (fun bare => ⟨bare.text, some type.text, bare.span⟩) ++
          ⟨name.text, some type.text, name.span.cover type.span⟩ :: arguments := by
  induction pending with
  | nil => rfl
  | cons bare pending ih =>
      rw [List.map_cons, List.cons_append, shareTypes, typeAhead_bare_append, typeAhead]
      simp only [ih]
      cases shareTypes others <;> rfl

/-- Bare names up to the end have no type to take. -/
theorem shareTypes_bare (first : Token) (pending : List Token) :
    shareTypes ((first :: pending).map .bare) =
      .error (.badSignature (.untyped ((first :: pending).map (·.text))) first.span) := by
  have hnone := typeAhead_bare_append pending []
  rw [List.append_nil, typeAhead] at hnone
  rw [List.map_cons, shareTypes, hnone, List.map_map]
  rfl

/-- With names pending the types are assigned as if the names were still ahead. -/
theorem assignTypes_pending (found : List Argument) (pending : List Token) (segments : List Segment) :
    assignTypes found pending segments =
      (shareTypes (pending.map .bare ++ segments)).map (found ++ ·) := by
  induction segments generalizing found pending with
  | nil =>
      rw [List.append_nil]
      cases pending with
      | nil => exact congrArg Except.ok (List.append_nil found).symm
      | cons first pending =>
          rw [shareTypes_bare]
          rfl
  | cons segment others ih =>
      cases segment with
      | bare name =>
          rw [assignTypes, ih, List.map_append, List.append_assoc]
          rfl
      | typed name type =>
          rw [assignTypes, ih, shareTypes_bare_append, List.map_nil, List.nil_append]
          cases shareTypes others <;> simp [Except.map]

/-- Assigning types segment by segment gives each bare name the type ahead of it. -/
theorem assignTypes_eq_shareTypes (segments : List Segment) :
    assignTypes [] [] segments = shareTypes segments := by
  rw [assignTypes_pending, List.map_nil, List.nil_append]
  cases shareTypes segments <;> rfl

/-- A name without a type to take is a fault of the signature. -/
theorem shareTypes_eq_error {segments : List Segment} {error : SyntaxError}
    (h : shareTypes segments = .error error) : ∃ fault span, error = .badSignature fault span := by
  induction segments with
  | nil => cases h
  | cons segment segments ih =>
      cases segment with
      | bare name =>
          simp only [shareTypes] at h
          split at h
          · exact ⟨_, _, (Except.error.inj h).symm⟩
          · exact ih (except_map_eq_error.mp h)
      | typed name type => exact ih (except_map_eq_error.mp h)

/-- The type ahead is the type of one of the segments. -/
theorem spells_of_typeAhead {segments : List Segment} {type : Token}
    (hsegments : ∀ segment ∈ segments, segment.Written)
    (h : typeAhead segments = some type) : Mode.arguments.Spells .ident type.text := by
  induction segments with
  | nil => cases h
  | cons segment segments ih =>
      rw [List.forall_mem_cons] at hsegments
      cases segment with
      | bare name => exact ih hsegments.2 h
      | typed name type' =>
          obtain rfl := Option.some.inj h
          exact hsegments.1.2 _ _ rfl

/-- Sharing types gives every argument one. -/
theorem written_of_shareTypes {segments : List Segment} {arguments : List Argument}
    (hsegments : ∀ segment ∈ segments, segment.Written)
    (h : shareTypes segments = .ok arguments) :
    ∀ argument ∈ arguments, argument.Written ∧ argument.type ≠ none := by
  induction segments generalizing arguments with
  | nil =>
      obtain rfl := Except.ok.inj h
      simp
  | cons segment segments ih =>
      rw [List.forall_mem_cons] at hsegments
      cases segment with
      | bare name =>
          simp only [shareTypes] at h
          split at h
          · cases h
          · next type htype =>
              obtain ⟨others, hothers, rfl⟩ := except_map_eq_ok.mp h
              rw [List.forall_mem_cons]
              refine ⟨⟨⟨hsegments.1.1, ?_⟩, by simp⟩, ih hsegments.2 hothers⟩
              intro _ heq
              exact Option.some.inj heq ▸ spells_of_typeAhead hsegments.2 htype
      | typed name type =>
          simp only [shareTypes] at h
          obtain ⟨others, hothers, rfl⟩ := except_map_eq_ok.mp h
          rw [List.forall_mem_cons]
          refine ⟨⟨⟨hsegments.1.1, ?_⟩, by simp⟩, ih hsegments.2 hothers⟩
          intro _ heq
          exact Option.some.inj heq ▸ hsegments.1.2 _ _ rfl

end Segment

/-- Words between commas are words of the list. -/
theorem splitAtCommas_subset {tokens words : List Token} (h : words ∈ splitAtCommas tokens) :
    ∀ word ∈ words, word ∈ tokens ∧ word.isPunct ',' = false := by
  induction tokens generalizing words with
  | nil =>
      obtain rfl := List.mem_singleton.mp h
      simp
  | cons token tokens ih =>
      unfold splitAtCommas at h
      split at h
      · rcases List.mem_cons.mp h with rfl | hlater
        · simp
        · intro word hword
          exact ⟨List.mem_cons_of_mem _ (ih hlater word hword).1, (ih hlater word hword).2⟩
      · next hcomma =>
          have hcomma : token.isPunct ',' = false := by simpa using hcomma
          have hhere : token ∈ token :: tokens := List.mem_cons_self
          split at h
          · obtain rfl := List.mem_singleton.mp h
            simpa using hcomma
          · next first further hsplit =>
              rcases List.mem_cons.mp h with rfl | hlater
              · intro word hword
                rcases List.mem_cons.mp hword with rfl | hword
                · exact ⟨hhere, hcomma⟩
                · obtain ⟨hmem, hplain⟩ := ih (hsplit ▸ List.mem_cons_self) word hword
                  exact ⟨List.mem_cons_of_mem _ hmem, hplain⟩
              · intro word hword
                obtain ⟨hmem, hplain⟩ := ih (hsplit ▸ List.mem_cons_of_mem _ hlater) word hword
                exact ⟨List.mem_cons_of_mem _ hmem, hplain⟩

/-- What a list of segments is made from are the words between its commas. -/
theorem dropTrailingComma_subset {segments : List (List Token)} :
    ∀ words ∈ dropTrailingComma segments, words ∈ segments := by
  unfold dropTrailingComma
  intro words hwords
  split at hwords
  · exact List.dropLast_subset _ hwords
  · exact hwords

/-- What is left to do once the words of each argument are a segment. -/
theorem resolveArguments_of_segments {opening : Span} {groups : List (List Token)}
    {segments : List Segment} (hfilled : groups ≠ [[]])
    (h : (dropTrailingComma groups).mapM (Segment.ofWords opening) = .ok segments) :
    resolveArguments opening groups =
      if segments.all (·.isBare) then
        .ok (segments.map fun segment => ⟨segment.name.text, none, segment.name.span⟩)
      else Segment.shareTypes segments := by
  rw [resolveArguments, if_neg hfilled, h, ← Segment.assignTypes_eq_shareTypes]
  rfl

/-- Arguments that are found come from segments: as they stand where none has a type, and by sharing
the types else. -/
theorem resolveArguments_cases {opening : Span} {groups : List (List Token)}
    {arguments : List Argument} (h : resolveArguments opening groups = .ok arguments) :
    groups = [[]] ∧ arguments = [] ∨
      groups ≠ [[]] ∧ ∃ segments,
        (dropTrailingComma groups).mapM (Segment.ofWords opening) = .ok segments ∧
          (segments.all (·.isBare) = true ∧
              arguments =
                segments.map (fun segment => ⟨segment.name.text, none, segment.name.span⟩) ∨
            ¬segments.all (·.isBare) = true ∧ Segment.shareTypes segments = .ok arguments) := by
  by_cases hfilled : groups = [[]]
  · rw [resolveArguments, if_pos hfilled] at h
    exact .inl ⟨hfilled, (Except.ok.inj h).symm⟩
  · have hresolve := h
    rw [resolveArguments, if_neg hfilled] at hresolve
    obtain ⟨segments, hsegments, _⟩ := except_bind_eq_ok.mp hresolve
    refine .inr ⟨hfilled, segments, hsegments, ?_⟩
    rw [resolveArguments_of_segments hfilled hsegments] at h
    split at h
    · next hbare => exact .inl ⟨hbare, (Except.ok.inj h).symm⟩
    · next hbare => exact .inr ⟨hbare, h⟩

/-- The arguments of words between commas are written, all with types or all without. -/
theorem written_of_resolveArguments {opening : Span} {groups : List (List Token)}
    {arguments : List Argument}
    (hwords : ∀ words ∈ groups, ∀ word ∈ words, Mode.arguments.Spells .ident word.text)
    (h : resolveArguments opening groups = .ok arguments) :
    Argument.AllWritten arguments := by
  obtain ⟨_, rfl⟩ | ⟨_, segments, hsegments, harguments⟩ := resolveArguments_cases h
  · exact ⟨by simp, .inl (by simp)⟩
  · have hwritten : ∀ segment ∈ segments, segment.Written := by
      intro segment hsegment
      obtain ⟨words, hmem, hof⟩ := mem_of_mapM_eq_ok hsegments segment hsegment
      exact Segment.written_of_ofWords (hwords words (dropTrailingComma_subset words hmem)) hof
    obtain ⟨_, rfl⟩ | ⟨_, hshared⟩ := harguments
    · refine ⟨?_, .inl ?_⟩
      · intro argument hargument
        obtain ⟨segment, hmem, rfl⟩ := List.mem_map.mp hargument
        exact ⟨(hwritten segment hmem).1, by simp⟩
      · intro argument hargument
        obtain ⟨segment, _, rfl⟩ := List.mem_map.mp hargument
        rfl
    · have htyped := Segment.written_of_shareTypes hwritten hshared
      exact ⟨fun argument hmem => (htyped argument hmem).1,
        .inr fun argument hmem => (htyped argument hmem).2⟩

/-- What is wrong with a list of words is a fault of the signature. -/
theorem resolveArguments_eq_error {opening : Span} {segments : List (List Token)}
    {error : SyntaxError} (h : resolveArguments opening segments = .error error) :
    ∃ fault span, error = .badSignature fault span := by
  unfold resolveArguments at h
  split at h
  · cases h
  · rcases except_bind_eq_error.mp h with hsegments | ⟨found, _, h⟩
    · obtain ⟨words, _, hwords⟩ := exists_of_mapM_eq_error hsegments
      exact Segment.ofWords_eq_error hwords
    · split at h
      · cases h
      · exact Segment.shareTypes_eq_error (Segment.assignTypes_eq_shareTypes found ▸ h)

/-- One more word or comma, unless the closing parenthesis stands ahead. -/
def wordStep : Parser (Option Token) := do
  let token ← peek .arguments
  if token.isPunct ')' then return none
  else if token.isPunct ',' || token.kind = .ident then return some (← advance .arguments)
  else fail (.unexpected "argument name".toList ["','".toList, "')'".toList] token)

theorem argumentList_eq :
    argumentList = (expect .arguments ['('] >>= fun opening =>
      many wordStep >>= fun words =>
      advance .arguments >>= fun closing =>
      match resolveArguments opening.span (splitAtCommas words) with
      | .ok arguments => pure (arguments, closing)
      | .error error => fail error) :=
  rfl

/-- A word of a list is read as it is spelled, or only a look ahead is taken. -/
theorem wordStep_spec (hr : r.Sound) :
    Ends wordStep r
      (fun found r' => r.Keeps r' ∧ ∀ token, found = some token → r.Passes r' ∧
        (token.isPunct ',' = false → Mode.arguments.Spells .ident token.text)) Local := by
  unfold wordStep
  refine (peek_keeps hr .arguments).bind ?_
  rintro token r₁ ⟨h₁, hshows⟩
  refine ends_ite.mpr ⟨fun _ => ⟨h₁, by simp⟩, fun _ => ?_⟩
  refine ends_ite.mpr ⟨fun hword => ?_, fun _ => by simp [Local]⟩
  simp only [Bool.or_eq_true, decide_eq_true_eq] at hword
  have hkind : token.kind ≠ .eof := by
    rcases hword with hcomma | hident
    · exact Token.kind_ne_eof_of_isPunct hcomma
    · simp [hident]
  refine ends_bind.mpr (hshows.advance_spec hkind ?_)
  have hpasses := h₁.passes (hshows.passes h₁.sound hkind)
  refine ⟨hpasses.keeps, ?_⟩
  intro found hfound
  obtain rfl := Option.some.inj hfound
  refine ⟨hpasses, fun hcomma => ?_⟩
  rcases hword with hcomma' | hident
  · rw [hcomma] at hcomma'
    cases hcomma'
  · exact hident ▸ hshows.spells h₁.sound

/-- The arguments that are read are written, either all with types or all without. -/
theorem argumentList_spec (hr : r.Sound) :
    Ends argumentList r
      (fun found r' => r.Passes r' ∧ Argument.AllWritten found.1) Local := by
  rw [argumentList_eq]
  refine (expect_passes hr .arguments ['(']).bind ?_
  rintro opening r₁ ⟨h₁, _⟩
  refine (many_spec (fun _ => wordStep_spec) h₁.sound).bind ?_
  rintro words r₂ ⟨h₂, hwords⟩
  refine (advance_keeps h₂.sound .arguments).bind ?_
  rintro closing r₃ ⟨h₃, _⟩
  split
  · next arguments harguments =>
      refine ⟨h₁.trans (h₂.trans h₃), written_of_resolveArguments ?_ harguments⟩
      intro group hgroup word hword
      obtain ⟨hmem, hplain⟩ := splitAtCommas_subset hgroup word hword
      exact hwords word hmem hplain
  · next error herror =>
      obtain ⟨fault, span, rfl⟩ := resolveArguments_eq_error herror
      simp [Local]

/-- A method is read with its arguments and what it returns. -/
theorem methodFrom_spec {name : Identifier} (hname : name.Written) (hr : r.Sound) :
    Ends (methodFrom name) r (fun method r' => r.Passes r' ∧ method.Written) Local := by
  unfold methodFrom
  refine (argumentList_spec hr).bind ?_
  rintro ⟨arguments, closing⟩ r₁ ⟨h₁, harguments⟩
  refine (peekSameLine_keeps h₁.sound .declaration).bind ?_
  rintro seen r₂ ⟨h₂, hshows⟩
  refine ends_ite.mpr ⟨fun hmark => ?_, fun _ => ?_⟩
  · obtain ⟨token, rfl, hcolon⟩ := isMark_eq_true.mp hmark
    have hkind := Token.kind_ne_eof_of_isPunct hcolon
    refine ends_bind.mpr ((hshows token rfl).advance_spec hkind ?_)
    have h₃ := (hshows token rfl).passes h₂.sound hkind
    refine (argumentList_spec h₃.sound).bind ?_
    rintro ⟨returns, closing⟩ r₄ ⟨h₄, hreturns⟩
    refine ⟨h₁.trans (h₂.trans (h₃.trans h₄.keeps).keeps), hname, harguments, ?_⟩
    intro found hfound
    exact Option.some.inj hfound ▸ hreturns
  · exact ⟨h₁.trans h₂, hname, harguments, by simp⟩

/-! ## Statements -/

/-- A statement that ends tight is followed by a comment or by a closing brace. -/
theorem finish_spec (hr : r.Sound) (wanted : Text) (others : List Text) :
    Ends (finish wanted others) r (fun _ r' => r.Keeps r' ∧ (r.Tight → r'.Glues)) Local := by
  unfold finish
  refine (peek_spec hr .declaration).mono ?_ (fun _ _ h => h.1) |> ends_bind.mpr
  intro token r₁ hsees
  have htight := fun h => hsees.tight (fun _ => rfl) h
  refine ends_ite.mpr ⟨fun hterminator => ?_, fun hterminator => ?_⟩
  · have hkind : token.kind ≠ .eof := by simp [hterminator]
    refine ends_bind.mpr (hsees.shows.advance_spec hkind ?_)
    refine ⟨(hsees.keeps.passes (hsees.shows.passes hsees.sound hkind)).keeps, fun h => ?_⟩
    -- A terminator is a blank or a semicolon, so the reader is tight by a comment.
    rcases htight h with hcomments | ⟨hend, _⟩
    · exact .inl hcomments
    · have hscan := (hsees.shows.scan hsees.sound).1
      rw [hterminator] at hscan
      rw [Mode.isLiteralEnd_of_scan_terminator hscan] at hend
      cases hend
  · refine ends_bind.mpr (ends_get.mpr ?_)
    refine ends_ite.mpr ⟨fun _ => by simp [Local], fun hgoes => ⟨hsees.keeps, fun h => ?_⟩⟩
    rcases htight h with hcomments | ⟨hend, hline⟩
    · exact .inl hcomments
    · simp only [hline, Bool.not_false, Bool.and_true, Bool.and_eq_true, decide_eq_true_eq,
        Bool.not_eq_true', not_and, Bool.not_eq_false] at hgoes
      refine .inr ⟨_, hsees.shows.text_eq_cons hsees.sound (hgoes fun heof => ?_)⟩
      rw [(hsees.shows.eof_iff hsees.sound).mp heof] at hend
      cases hend

/-- What may follow a block is consumed, and nothing else. -/
theorem finishBlock_spec (hr : r.Sound) :
    Ends finishBlock r (fun _ r' => r.Keeps r') Local := by
  unfold finishBlock
  refine (peek_keeps hr .declaration).bind ?_
  rintro token r₁ ⟨h₁, hshows⟩
  refine ends_ite.mpr ⟨fun hterminator => ?_, fun _ => h₁⟩
  have hkind : token.kind ≠ .eof := by simp [hterminator]
  exact ends_bind.mpr (hshows.advance_spec hkind
    (h₁.passes (hshows.passes h₁.sound hkind)).keeps)

variable {target : Target}

/-- What follows the label of a declaration is read, with all that it hands over written. -/
theorem declarationAfterLabel_spec (htarget : target.Written) (hr : r.Sound) (colon : Span)
    {label : Option Label}
    (hlabel : ∀ found, label = some found →
      found.Written ∧ (found.isBareLiteral = true → r.Tight)) :
    Ends (declarationAfterLabel target colon label) r
      (fun statement r' => r.Keeps r' ∧ statement.Written r') Local := by
  unfold declarationAfterLabel
  refine (peekSameLine_spec hr .label).bind ?_
  rintro seen r₁ ⟨token, hsees, hseen⟩
  have htight := fun h => hsees.tight (fun _ => rfl) h
  refine ends_ite.mpr ⟨fun _ => ?_, fun _ => ?_⟩
  · refine (expect_passes hsees.sound .label _).bind ?_
    rintro brace r₂ ⟨h₂, _⟩
    exact ⟨(hsees.keeps.passes h₂).keeps, htarget, fun found hfound => (hlabel found hfound).1⟩
  · split
    · next found =>
        obtain ⟨hwritten, hbare⟩ := hlabel found rfl
        refine (finish_spec hsees.sound _ _).bind ?_
        rintro _ r₂ ⟨h₂, hglues⟩
        refine ⟨hsees.keeps.trans h₂, fun _ _ => .declaration ⟨htarget, ?_, by simp, by simp, by simp⟩, ?_⟩
        · intro label hfound
          exact Option.some.inj hfound ▸ hwritten
        · intro hneeds
          exact hglues (htight (hbare hneeds))
    · refine (finish_spec hsees.sound _ _).bind ?_
      rintro _ r₂ ⟨h₂, _⟩
      exact ⟨hsees.keeps.trans h₂,
        fun _ _ => .declaration ⟨htarget, by simp, by simp, by simp, by simp⟩, fun h => by cases h⟩

/-- An import token stands for an import that is written. -/
theorem written_importOf {mode : Mode} {token : Token} {r' : Reader} (h : r'.Shows mode token)
    (hr : r'.Sound) (hkind : token.kind = .importRef) : (importOf token).Written :=
  ⟨mode, token, hkind ▸ h.spells hr, rfl⟩

/-- What follows the colon of a declaration is read, with all that it hands over written. -/
theorem declarationAfterColon_spec (htarget : target.Written) (hr : r.Sound) (colon : Span) :
    Ends (declarationAfterColon target colon) r
      (fun statement r' => r.Keeps r' ∧ statement.Written r') Local := by
  unfold declarationAfterColon
  refine (peekSameLine_keeps hr .label).bind ?_
  rintro seen r₁ ⟨h₁, hshows⟩
  split
  · refine (finish_spec h₁.sound _ _).bind ?_
    rintro _ r₂ ⟨h₂, _⟩
    exact ⟨h₁.trans h₂, fun _ _ => .declaration ⟨htarget, by simp, by simp, by simp, by simp⟩, fun h => by cases h⟩
  · next token =>
      have hshows := hshows token rfl
      refine ends_ite.mpr ⟨fun himport => ?_, fun _ => ?_⟩
      · have hkind : token.kind ≠ .eof := by simp [himport]
        refine ends_bind.mpr (hshows.advance_spec hkind ?_)
        have h₂ := hshows.passes h₁.sound hkind
        refine (finish_spec h₂.sound _ _).bind ?_
        rintro _ r₃ ⟨h₃, _⟩
        refine ⟨h₁.trans (h₂.keeps.trans h₃), fun _ _ => .declaration
          ⟨htarget, by simp, ?_, by simp, by simp⟩, fun h => by cases h⟩
        intro imported hfound
        exact Option.some.inj hfound ▸ written_importOf hshows h₁.sound himport
      · refine (label_spec h₁.sound).bind ?_
        rintro label r₂ ⟨h₂, hlabel⟩
        refine (declarationAfterLabel_spec htarget h₂.sound colon hlabel).imp ?_
        rintro statement r₃ ⟨h₃, hstatement⟩
        exact ⟨h₁.trans (h₂.trans h₃), hstatement⟩

/-- What follows the target of a declaration is read, with all that it hands over written. -/
theorem declarationFrom_spec (htarget : target.Written) (hr : r.Sound) :
    Ends (declarationFrom target) r
      (fun statement r' => r.Keeps r' ∧ statement.Written r') Local := by
  unfold declarationFrom
  refine (peekSameLine_keeps hr .declaration).bind ?_
  rintro seen r₁ ⟨h₁, hshows⟩
  refine ends_ite.mpr ⟨fun hmark => ?_, fun _ => ?_⟩
  · obtain ⟨token, rfl, hcolon⟩ := isMark_eq_true.mp hmark
    have hkind := Token.kind_ne_eof_of_isPunct hcolon
    refine ends_bind.mpr ((hshows token rfl).advance_spec hkind ?_)
    have h₂ := (hshows token rfl).passes h₁.sound hkind
    refine (declarationAfterColon_spec htarget h₂.sound _).imp ?_
    rintro statement r₃ ⟨h₃, hstatement⟩
    exact ⟨h₁.trans (h₂.keeps.trans h₃), hstatement⟩
  · refine (finish_spec h₁.sound _ _).bind ?_
    rintro _ r₂ ⟨h₂, _⟩
    exact ⟨h₁.trans h₂, fun _ _ => .declaration ⟨htarget, by simp, by simp, by simp, by simp⟩, fun h => by cases h⟩

/-- A statement consumes something, and what it hands over is written. -/
theorem statement_spec (hr : r.Sound) :
    Ends statement r
      (fun statement r' => r.Passes r' ∧ statement.Written r') Local := by
  unfold statement
  refine (peek_keeps hr .declaration).bind ?_
  rintro token r₁ ⟨h₁, hshows⟩
  refine ends_ite.mpr ⟨fun himport => ?_, fun _ => ends_ite.mpr ⟨fun _ => ?_, fun _ => ?_⟩⟩
  · have hkind : token.kind ≠ .eof := by simp [himport]
    refine ends_bind.mpr (hshows.advance_spec hkind ?_)
    have h₂ := h₁.passes (hshows.passes h₁.sound hkind)
    refine (finish_spec h₂.sound _ _).bind ?_
    rintro _ r₃ ⟨h₃, _⟩
    exact ⟨h₂.trans h₃, fun _ _ => .importing (written_importOf hshows h₁.sound himport), fun h => by cases h⟩
  · refine (reference_spec h₁.sound).bind ?_
    rintro reference r₂ ⟨h₂, hreference⟩
    have htarget : (Target.reference reference).Written := hreference
    refine (declarationFrom_spec htarget h₂.sound).imp ?_
    rintro statement r₃ ⟨h₃, hstatement⟩
    exact ⟨(h₁.passes h₂).trans h₃, hstatement⟩
  · refine (identifier_spec h₁.sound).bind ?_
    rintro first r₂ ⟨h₂, hfirst⟩
    refine (peekSameLine_keeps h₂.sound .declaration).bind ?_
    rintro seen r₃ ⟨h₃, _⟩
    have hpasses := h₁.passes (h₂.trans h₃)
    refine ends_ite.mpr ⟨fun _ => ?_, fun _ => ?_⟩
    · refine (methodFrom_spec hfirst h₃.sound).bind ?_
      rintro method r₄ ⟨h₄, hmethod⟩
      refine (finish_spec h₄.sound _ _).bind ?_
      rintro _ r₅ ⟨h₅, _⟩
      exact ⟨hpasses.trans (h₄.keeps.trans h₅), fun _ _ => .method hmethod, fun h => by cases h⟩
    · refine (expressionFrom_spec hfirst h₃.sound).bind ?_
      rintro expression r₄ ⟨h₄, hexpression⟩
      have htarget : (Target.expression expression).Written := hexpression
      refine (declarationFrom_spec htarget h₄.sound).imp ?_
      rintro statement r₅ ⟨h₅, hstatement⟩
      exact ⟨hpasses.trans (h₄.trans h₅), hstatement⟩

/-! ## Leaves -/

/-- What is handed over whole is neither a comment nor a block. -/
def Statement.IsLeaf (read : Statement) : Prop :=
  ∀ item, read = .item item → item.isLeaf = true

theorem isLeaf_item {item : Item} (h : item.isLeaf = true) : Statement.IsLeaf (.item item) := by
  rintro _ ⟨⟩
  exact h

theorem isLeaf_opening (target : Target) (label : Option Label) (brace : Token) :
    Statement.IsLeaf (.opening target label brace) := by
  rintro _ ⟨⟩

/-- What follows a label hands over a declaration without a block, or a block that opens. -/
theorem declarationAfterLabel_leaf (target : Target) (colon : Span) (label : Option Label)
    (r : Reader) :
    Ends (declarationAfterLabel target colon label) r (fun read _ => read.IsLeaf)
      fun _ _ => True := by
  unfold declarationAfterLabel
  refine ends_true.bind fun seen r₁ _ => ends_ite.mpr ⟨fun _ => ?_, fun _ => ?_⟩
  · exact ends_true.bind fun brace _ _ => isLeaf_opening target label brace
  · split
    · exact ends_true.bind fun _ _ _ => isLeaf_item rfl
    · exact ends_true.bind fun _ _ _ => isLeaf_item rfl

/-- What follows a colon hands over a declaration without a block, or a block that opens. -/
theorem declarationAfterColon_leaf (target : Target) (colon : Span) (r : Reader) :
    Ends (declarationAfterColon target colon) r (fun read _ => read.IsLeaf) fun _ _ => True := by
  unfold declarationAfterColon
  refine ends_true.bind fun seen r₁ _ => ?_
  split
  · exact ends_true.bind fun _ _ _ => isLeaf_item rfl
  · refine ends_ite.mpr ⟨fun _ => ?_, fun _ => ?_⟩
    · exact ends_true.bind fun _ _ _ => ends_true.bind fun _ _ _ => isLeaf_item rfl
    · exact ends_true.bind fun label r₂ _ => declarationAfterLabel_leaf target colon label r₂

/-- What follows a target hands over a declaration without a block, or a block that opens. -/
theorem declarationFrom_leaf (target : Target) (r : Reader) :
    Ends (declarationFrom target) r (fun read _ => read.IsLeaf) fun _ _ => True := by
  unfold declarationFrom
  refine ends_true.bind fun seen r₁ _ => ends_ite.mpr ⟨fun _ => ?_, fun _ => ?_⟩
  · exact ends_true.bind fun colon r₂ _ => declarationAfterColon_leaf target colon.span r₂
  · exact ends_true.bind fun _ _ _ => isLeaf_item rfl

/-- No statement hands over a comment or a whole block. -/
theorem statement_leaf (r : Reader) :
    Ends statement r (fun read _ => read.IsLeaf) fun _ _ => True := by
  unfold statement
  refine ends_true.bind fun token r₁ _ => ?_
  refine ends_ite.mpr ⟨fun _ => ?_, fun _ => ends_ite.mpr ⟨fun _ => ?_, fun _ => ?_⟩⟩
  · exact ends_true.bind fun _ _ _ => ends_true.bind fun _ _ _ => isLeaf_item rfl
  · exact ends_true.bind fun reference r₂ _ => declarationFrom_leaf (.reference reference) r₂
  · refine ends_true.bind fun first r₂ _ => ends_true.bind fun seen r₃ _ => ?_
    refine ends_ite.mpr ⟨fun _ => ?_, fun _ => ?_⟩
    · exact ends_true.bind fun _ _ _ => ends_true.bind fun _ _ _ => isLeaf_item rfl
    · exact ends_true.bind fun expression r₄ _ => declarationFrom_leaf (.expression expression) r₄

end Grammar

end DiagramText
