import DiagramText.Proofs.Reprint.Name

/-!
# Labels that are printed are read again

A label that was read is read again from its canonical source, before whatever
may follow a label of its kind (`Label.EndsAt`): a literal ends before a blank,
and a free text where nothing goes on with it.
-/

namespace DiagramText

open Grammar Reader

/-! ## Lists of constraints -/

/-- The names of constraints that are still to be read, the closing bracket, and what follows it. -/
def constraintsAhead (u : Text) : List Text → Text
  | [] => ']' :: u
  | name :: others => name ++ (others.flatMap ([';', ' '] ++ ·) ++ ']' :: u)

variable {u : Text}

/-- No word goes on where a constraint ends. -/
theorem constraintsAhead_begins (u : Text) (others : List Text) :
    Text.Begins (fun c => isPlainWord c = false)
      (others.flatMap ([';', ' '] ++ ·) ++ ']' :: u) := by
  cases others with
  | nil => exact Text.begins_cons.mpr (by decide)
  | cons name others => exact Text.begins_cons.mpr (by decide)

/-- A constraint that is printed is cut whole. -/
theorem constraintName_cuts {name : Text} (h : Mode.constraints.Spells .ident name)
    (others : List Text) :
    Mode.constraints.Cuts (constraintsAhead u (name :: others)) .ident name
      (others.flatMap ([';', ' '] ++ ·) ++ ']' :: u) := by
  obtain ⟨hname, hall⟩ := Mode.lists_constraints.all_of_spells h
  exact .of_scan (Mode.lists_constraints.scan_word (by decide) hname hall
    (constraintsAhead_begins u others)) rfl

/-- A mark between constraints is cut whole. -/
theorem constraintsMark_cuts {mark : Char} (h : mark ∈ [']', ';']) (v : Text) :
    Mode.constraints.Cuts (mark :: v) .punct [mark] v := by
  refine .of_scan (x := [mark]) (Mode.lists_constraints.scan_mark ?_ ?_ v) rfl <;>
    simp only [List.mem_cons, List.not_mem_nil, or_false] at h ⊢ <;>
    rcases h with rfl | rfl <;> simp

/-- A name is read with the semicolon that stands before a further name. -/
theorem constraintName_reads {name : Text} (h : Mode.constraints.Spells .ident name)
    (wanted others : List Text) :
    Reads (constraintName wanted) (constraintsAhead u (name :: others))
      fun found r => found = name ∧ r.At (constraintsAhead u others) := by
  unfold constraintName
  refine (peek_reads (constraintName_cuts h others)).bind ?_
  rintro token ⟨hkind, htext⟩
  rw [if_neg (by simp [hkind])]
  refine (advance_reads (constraintName_cuts h others) (by decide)).bind fun _ _ => ?_
  cases others with
  | nil =>
      refine (peek_reads (constraintsMark_cuts (by simp) u)).bind fun next hnext => ?_
      rw [if_neg (by simp [isPunct_eq hnext])]
      exact reads_pure htext
  | cons further others =>
      have hcuts : Mode.constraints.Cuts (';' :: ' ' :: constraintsAhead u (further :: others)) .punct _ _ :=
        constraintsMark_cuts (by simp) _
      have hsource : (further :: others).flatMap ([';', ' '] ++ ·) ++ ']' :: u =
          ';' :: ' ' :: constraintsAhead u (further :: others) := by
        simp [constraintsAhead]
      rw [hsource]
      refine (peek_reads hcuts).bind fun next hnext => ?_
      rw [if_pos (by simp [isPunct_eq hnext])]
      refine (advance_reads hcuts (by decide)).bind fun _ _ => ?_
      exact Reads.space (reads_pure htext)

/-- A further constraint that is printed is read again. -/
theorem constraintStep_reads {name : Text} (h : Mode.constraints.Spells .ident name)
    (others : List Text) :
    Reads constraintStep (constraintsAhead u (name :: others))
      fun found r => (∃ read, found = some read ∧ read = name) ∧ r.At (constraintsAhead u others) := by
  unfold constraintStep
  refine (peek_reads (constraintName_cuts h others)).bind fun token htoken => ?_
  rw [if_neg (by simp [isPunct_eq htoken])]
  refine (constraintName_reads h _ others).bind fun read hread => ?_
  exact reads_pure ⟨read, rfl, hread⟩

/-- No constraint is read before the closing bracket. -/
theorem constraintStep_stops :
    Reads constraintStep (constraintsAhead u []) fun found r => found = none ∧
      r.At (constraintsAhead u []) := by
  unfold constraintStep
  refine (peek_reads (constraintsMark_cuts (by simp) u)).bind fun token htoken => ?_
  rw [if_pos (by simp [isPunct_eq htoken])]
  exact reads_pure rfl

/-- Constraints that are printed are read again. -/
theorem constraints_reads {names : List Text} (hsome : names ≠ [])
    (h : ∀ name ∈ names, Mode.constraints.Spells .ident name) (span : Span) :
    Reads Grammar.constraints ((Label.constraints names span).canonical ++ u)
      fun found r => found.bare = (Label.constraints names span).bare ∧ r.At u := by
  obtain ⟨first, others, rfl⟩ := List.exists_cons_of_ne_nil hsome
  rw [List.forall_mem_cons] at h
  have hsource : (Label.constraints (first :: others) span).canonical ++ u =
      '[' :: constraintsAhead u (first :: others) := by
    simp [Label.canonical, constraintsAhead, Text.join_cons]
  have hopening : Mode.label.Cuts ('[' :: constraintsAhead u (first :: others)) .punct ['[']
      (constraintsAhead u (first :: others)) := .of_scan (x := ['[']) rfl rfl
  rw [hsource, constraints_eq]
  refine (expect_reads hopening).bind fun opening _ => ?_
  refine (constraintName_reads h.1 _ others).bind fun name hname => ?_
  refine Reads.bind (many_reads_from (K := fun name => name) (L := fun name => name)
    (fun _ => constraintStep_spec) constraintStep_stops ?_) fun names hnames => ?_
  · intro value later hsuffix
    exact constraintStep_reads (h.2 value (hsuffix.subset List.mem_cons_self)) later
  · refine (advance_reads (constraintsMark_cuts (by simp) u) (by decide)).bind fun closing _ => ?_
    refine reads_pure ?_
    simp only [List.map_id'] at hnames
    rw [Label.bare, hname, hnames, Label.bare]

/-! ## Labels -/

/-- What may follow a label of its kind. -/
def Label.EndsAt (u : Text) : Label → Prop
  | .code .. => True
  | .constraints .. => True
  | .scalar (.quoted _) _ _ => u.Begins (· ≠ '\x22')
  | .scalar (.text _) raw _ => TextEnds raw u
  | .scalar _ _ _ => isLiteralEnd u = true

/-- The label is what a token of this kind and text stands for. -/
inductive Label.FromToken : Label → TokenKind → Text → Prop
  | code {text : Text} {parts : CodeParts} {span : Span}
      (parted : CodeParts.ofText? text = some (.ok parts)) :
      FromToken (.code parts span) .codeBlock text
  | number {raw : Text} {value : Scalar} {span : Span}
      (valued : ∀ r, numberValue raw r = .ok value r) :
      FromToken (.scalar value raw span) .number raw
  | boolean {raw : Text} {span : Span} :
      FromToken (.scalar (.boolean (raw == "true".toList)) raw span) .boolean raw
  | quoted {raw : Text} {span : Span} :
      FromToken (.scalar (.quoted ((Text.unquote? raw).getD [])) raw span) .quoted raw
  | text {raw : Text} {span : Span} : FromToken (.scalar (.text raw) raw span) .text raw

/-- A label is read from its token. -/
theorem Label.FromToken.reads {label : Label} {kind : TokenKind} {raw s : Text}
    (h : label.FromToken kind raw) (hcuts : Mode.label.Cuts s kind raw u) :
    Reads Grammar.label s
      fun found r => (∃ read, found = some read ∧ read.bare = label.bare) ∧ r.At u := by
  unfold Grammar.label
  refine (peek_reads hcuts).bind ?_
  rintro token ⟨hkind, htext⟩
  cases h with
  | code parted =>
      simp only [hkind, htext]
      refine (advance_reads hcuts (by decide)).bind fun _ _ => ?_
      rw [parted]
      exact reads_pure ⟨_, rfl, rfl⟩
  | @number _ value _ valued =>
      have hvalue : Reads (numberValue raw) u fun found r => found = value ∧ r.At u :=
        fun r hr => (ends_of_ok (valued r)).mpr ⟨rfl, hr⟩
      simp only [hkind, htext]
      refine (advance_reads hcuts (by decide)).bind fun _ _ => ?_
      refine hvalue.bind fun found hfound => reads_pure ⟨_, rfl, ?_⟩
      rw [hfound, Label.bare, Label.bare]
  | boolean =>
      simp only [hkind, htext]
      exact (advance_reads hcuts (by decide)).bind fun _ _ => reads_pure ⟨_, rfl, rfl⟩
  | quoted =>
      simp only [hkind, htext]
      exact (advance_reads hcuts (by decide)).bind fun _ _ => reads_pure ⟨_, rfl, rfl⟩
  | text =>
      simp only [hkind, htext]
      exact (advance_reads hcuts (by decide)).bind fun _ _ => reads_pure ⟨_, rfl, rfl⟩

/-- The value of a number is an integer or a float. -/
theorem number_of_valued {raw : Text} {value : Scalar}
    (h : ∀ r, numberValue raw r = .ok value r) :
    (∃ n, value = .integer n) ∨ ∃ x, value = .float x :=
  ((numberValue_spec raw (.ofText [])).ok (h _)).2.2

/-- The source of a label that was read is cut as the token it stands for, unless it is a list of
constraints. -/
theorem Label.Written.cuts {label : Label} (h : label.Written) (hu : label.EndsAt u) :
    (∃ kind raw, label.FromToken kind raw ∧ Mode.label.Cuts (label.canonical ++ u) kind raw u) ∨
      ∃ names span, label = .constraints names span ∧ names ≠ [] ∧
        ∀ name ∈ names, Mode.constraints.Spells .ident name := by
  cases h with
  | @code text parts span spelled parted =>
      obtain ⟨parts', hparts', hfits, _⟩ := CodeParts.of_spells spelled
      obtain rfl : parts' = parts := by simpa [hparts'] using parted
      exact .inl ⟨_, _, .code hfits.ofText?, .of_scan (hfits.scan u) rfl⟩
  | @number raw value span spelled valued =>
      have hsource : (Label.scalar value raw span).canonical = raw := by
        rcases number_of_valued valued with ⟨n, rfl⟩ | ⟨x, rfl⟩ <;> rfl
      have hend : isLiteralEnd u = true := by
        rcases number_of_valued valued with ⟨n, rfl⟩ | ⟨x, rfl⟩ <;> exact hu
      rw [hsource]
      exact .inl ⟨_, _, .number valued, .of_scan ((IsNumeral.of_spells spelled).scan hend) rfl⟩
  | boolean spelled =>
      exact .inl ⟨_, _, .boolean, .of_scan ((IsBoolean.of_spells spelled).scan hu) rfl⟩
  | @quoted raw span spelled =>
      have hquoted := IsQuoted.of_spells_label spelled
      obtain ⟨mark, hmark, _, hsource⟩ := hquoted.quote_unquote?
      obtain rfl := List.mem_singleton.mp hmark
      have hscan : Mode.label.scan (raw ++ u) = .ok ⟨.quoted, raw.length⟩ :=
        (Mode.scan_eq_ok (by simp [spelled.ne_nil (by decide)])).mpr
          (hquoted.firstOf (Mode.label.recognisers.drop 5) hu)
      refine .inl ⟨_, _, .quoted, ?_⟩
      change Mode.label.Cuts (((Text.unquote? raw).getD []).quote QuoteMark.double.text ++ u) _ _ u
      rw [hsource]
      exact .of_scan hscan rfl
  | text spelled => exact .inl ⟨_, _, .text, .of_scan ((IsText.of_spells spelled).scan hu) rfl⟩
  | constraints hsome spelled => exact .inr ⟨_, _, rfl, hsome, spelled⟩

/-- The opening bracket of a list of constraints is cut as a mark. -/
theorem constraints_cuts (names : List Text) (span : Span) (u : Text) :
    ∃ rest, Mode.label.Cuts ((Label.constraints names span).canonical ++ u) .punct ['['] rest := by
  obtain ⟨t, ht⟩ : ∃ t, (Label.constraints names span).canonical ++ u = '[' :: t := ⟨_, rfl⟩
  rw [ht]
  exact ⟨t, .of_scan (x := ['[']) rfl rfl⟩

/-- A label does not begin like an import. -/
theorem Label.Written.front {label : Label} (h : label.Written) (hu : label.EndsAt u) :
    ∃ kind x rest, Mode.label.Cuts (label.canonical ++ u) kind x rest ∧ kind ≠ .importRef := by
  rcases h.cuts hu with ⟨kind, raw, hfrom, hcuts⟩ | ⟨names, span, rfl, _⟩
  · exact ⟨kind, raw, u, hcuts, by cases hfrom <;> decide⟩
  · obtain ⟨rest, hcuts⟩ := constraints_cuts names span u
    exact ⟨_, _, rest, hcuts, by decide⟩

/-- A label that is printed is read again. -/
theorem label_reads {label : Label} (h : label.Written) (hu : label.EndsAt u) :
    Reads Grammar.label (label.canonical ++ u)
      fun found r => (∃ read, found = some read ∧ read.bare = label.bare) ∧ r.At u := by
  rcases h.cuts hu with ⟨kind, raw, hfrom, hcuts⟩ | ⟨names, span, rfl, hsome, spelled⟩
  · exact hfrom.reads hcuts
  · obtain ⟨rest, hcuts⟩ := constraints_cuts names span u
    unfold Grammar.label
    refine (peek_reads hcuts).bind fun token htoken => ?_
    simp only [htoken.1]
    rw [if_pos (by simp [isPunct_eq htoken])]
    refine (constraints_reads hsome spelled span).bind fun read hread => ?_
    exact reads_pure ⟨read, rfl, hread⟩

/-! ## What follows a label -/

/-- Labels that are no bare literals may end the line, or stand before a blank and a brace. -/
theorem Label.Written.endsAt {label : Label} (h : label.Written)
    (hbare : label.isBareLiteral = false) (hu : u = [] ∨ ∃ rest, u = ' ' :: '\x7b' :: rest) :
    label.EndsAt u := by
  have hend : isLiteralEnd u = true := by
    rcases hu with rfl | ⟨rest, rfl⟩ <;> rfl
  cases h with
  | code => trivial
  | number _ valued =>
      rcases number_of_valued valued with ⟨n, rfl⟩ | ⟨x, rfl⟩ <;> exact hend
  | boolean => exact hend
  | quoted =>
      rcases hu with rfl | ⟨rest, rfl⟩
      · exact Text.Begins.nil
      · exact Text.begins_cons.mpr (by decide)
  | text =>
      have hliteral : ∀ v, readsAsLiteral _ = true → isLiteralEnd v = false := fun _ hreads => by
        rw [show readsAsLiteral _ = false from hbare] at hreads
        cases hreads
      rcases hu with rfl | ⟨rest, rfl⟩
      · exact ⟨rfl, Text.Begins.nil, by simp, hliteral []⟩
      · refine ⟨?_, Text.begins_cons.mpr (by decide), ?_, hliteral _⟩
        · cases rest <;> rfl
        · intro c hc hescapable
          obtain rfl := Option.some.inj hc
          exact absurd hescapable (by decide)
  | constraints => trivial

/-- A numeral or boolean holds no backslash, which would end it. -/
theorem not_mem_of_readsAsLiteral {raw : Text} (h : readsAsLiteral raw = true) : '\\' ∉ raw := by
  intro hmem
  obtain ⟨front, back, rfl⟩ := List.append_of_mem hmem
  simp only [readsAsLiteral, Bool.and_eq_true, Bool.or_eq_true, beq_iff_eq] at h
  have hlonger : front.length < (front ++ '\\' :: back).length := by simp
  rcases h.2 with hnumeral | hboolean
  · by_cases hfront : front = []
    · subst hfront
      have hne : numeralLength ('\\' :: back) ≠ 0 := by
        intro hzero
        rw [List.nil_append, hzero] at hnumeral
        cases hnumeral
      rcases numeral_front hne with hsign | hsign | hdigit
      · exact absurd hsign (by decide)
      · exact absurd hsign (by decide)
      · exact absurd hdigit (by decide)
    · have hends : Text.Begins (fun c => c.isDigit = false ∧ c ≠ '.') ('\\' :: back) :=
        Text.begins_cons.mpr (by decide)
      have hle := numeralLength_le_length front
      rw [numeralLength_append hends hfront] at hnumeral
      omega
  · have hends : Text.Begins (fun c => c.isAlphanum = false) ('\\' :: back) :=
      Text.begins_cons.mpr (by decide)
    have hle := booleanLength_le_length front
    rw [booleanLength_append hends] at hboolean
    omega

/-- A bare literal may stand right before a brace and before a comment. -/
theorem Label.endsAt_glued {label : Label} (hbare : label.isBareLiteral = true)
    {c : Char} (hc : c ∈ ['\x7b', '\x7d', '#', '\x22']) (rest : Text) : label.EndsAt (c :: rest) := by
  cases label with
  | code => cases hbare
  | constraints => cases hbare
  | scalar value raw span =>
      cases value with
      | text value =>
          have hslash := not_mem_of_readsAsLiteral hbare
          simp only [List.mem_cons, List.not_mem_nil, or_false] at hc
          refine ⟨?_, Text.begins_cons.mpr ?_, fun _ _ _ => hslash, fun _ => ?_⟩
          · rw [Phrase.extent_cons]
            rcases hc with rfl | rfl | rfl | rfl <;> cases rest <;> rfl
          · rcases hc with rfl | rfl | rfl | rfl <;> decide
          · rcases hc with rfl | rfl | rfl | rfl <;> rfl
      | _ => cases hbare

end DiagramText
