import DiagramText.Proofs.Grammar.Looking
import DiagramText.Proofs.Grammar.Turns
import DiagramText.Proofs.Reader.Extended
import DiagramText.Proofs.Reader.Log

/-!
# Programs that build scopes

Acting on a token changes the scopes in three ways only: a leaf is added, an
empty block is opened, or a block is closed.  Besides it reads on, as the grammar
does, or fails.  `Grammar.Builds` says of a program that it is put together in
this way, and `Grammar.act_builds` that acting is.

A relation of scopes that each of the three changes keeps relates the scopes before
such a program to those after it, whether it succeeds or fails (`Builds.grows`).
The program sees nothing of the comments collected before it (`Builds.recalling`),
and logs those that it passes over (`Builds.logs`).  On a text that is continued it
does the same as long as it does not see the end of the shorter one
(`Builds.extend`).
-/

namespace DiagramText.Grammar

open Reader

/-- The program is put together from reading on, the three changes of the scopes, questions about
them, and failures.  What follows a program may depend on what that program can give. -/
inductive Builds : {α : Type} → Builder α → Prop
  | pure {α : Type} (a : α) : Builds (pure a : Builder α)
  | reject {α : Type} (error : SyntaxError) : Builds (reject error : Builder α)
  | parsing {α : Type} {p : Parser α} (looks : Looks p) : Builds (parsing p)
  | bind {α β : Type} {p : Builder α} {f : α → Builder β} (head : Builds p)
      (rest : ∀ a S T, p S = .ok a T → Builds (f a)) : Builds (p >>= f)
  | scopes {α : Type} {f : Session → Builder α} (same : ∀ S T : Session, S.scopes = T.scopes → f S = f T)
      (rest : ∀ S, Builds (f S)) : Builds (get >>= f)
  | leaf {item : Item} (leaf : item.isLeaf = true) : Builds (scoping (·.add [item]))
  | opening (target : Target) (label : Option Label) (brace : Token) :
      Builds (scoping (·.push ⟨brace, target, label, []⟩))
  | close (closing : Span) : Builds (scoping (·.pop closing))

variable {config : Config} {α : Type}

theorem Builds.ite {c : Prop} [Decidable c] {p q : Builder α} (hp : Builds p) (hq : Builds q) :
    Builds (if c then p else q) := by
  by_cases hc : c
  · rwa [if_pos hc]
  · rwa [if_neg hc]

/-- Opening a block asks how many are open, and opens one or fails. -/
theorem openBlock_builds (target : Target) (label : Option Label) (brace : Token) :
    Builds (openBlock config ⟨brace, target, label, []⟩) := by
  have hpush := Builds.opening target label brace
  apply Builds.scopes
  · intro S T h
    rw [h]
  · intro S
    exact .ite ((Builds.reject _).bind fun _ _ _ _ => hpush) hpush

/-- Closing a block consumes its brace and closes it. -/
theorem closeBlock_builds : Builds closeBlock :=
  (Builds.parsing (.advance _)).bind fun closing _ _ _ =>
    (Builds.close closing.span).bind fun _ _ _ _ => .parsing finishBlock_looks

theorem place_builds {read : Statement} (hleaf : read.IsLeaf) : Builds (place config read) := by
  cases read with
  | item item => exact (Builds.leaf (hleaf item rfl)).bind fun _ _ _ _ => .pure _
  | opening target label brace =>
      exact (openBlock_builds target label brace).bind fun _ _ _ _ => .pure _

/-- Acting on a token builds scopes. -/
theorem act_builds (token : Token) : Builds (act config token) := by
  apply Builds.scopes
  · intro S T h
    rw [h]
  intro S
  apply Builds.ite
  · exact (Builds.parsing (.advance _)).bind fun _ _ _ _ => .pure _
  apply Builds.ite
  · cases S.scopes.blocks with
    | nil => exact .pure _
    | cons block outer => exact .reject _
  apply Builds.ite
  · have hclose : Builds (closeBlock >>= fun _ => pure true) :=
      closeBlock_builds.bind fun _ _ _ _ => .pure _
    exact .ite ((Builds.reject _).bind fun _ _ _ _ => hclose) hclose
  · exact (Builds.parsing statement_looks).bind fun read _ _ hread =>
      place_builds (parsing_statement_leaf hread)

/-! ## What changes in the scopes -/

/-- What adding a leaf, opening an empty block and closing a block have in common. -/
structure Scopes.Growth (R : Scopes → Scopes → Prop) : Prop where
  refl : ∀ scopes, R scopes scopes
  trans : ∀ {a b c}, R a b → R b c → R a c
  leaf : ∀ scopes item, item.isLeaf = true → R scopes (scopes.add [item])
  opening : ∀ scopes target label brace, R scopes (scopes.push ⟨brace, target, label, []⟩)
  close : ∀ scopes closing, R scopes (scopes.pop closing)

/-- A relation that allows the three changes holds between the scopes before the program and those
after it, whether it succeeds or fails. -/
theorem Builds.grows {p : Builder α} {R : Scopes → Scopes → Prop} (h : Builds p)
    (hR : Scopes.Growth R) (S : Session) :
    Ends p S (fun _ T => R S.scopes T.scopes) fun _ T => R S.scopes T.scopes := by
  induction h generalizing S with
  | pure a => exact hR.refl _
  | reject error => exact hR.refl _
  | parsing _ =>
      rw [ends_parsing]
      exact ends_true.mono (fun _ _ _ => hR.refl _) fun _ _ _ => hR.refl _
  | @bind _ _ p f _ _ hhead hrest =>
      cases hrun : p S with
      | error fault T => exact (ends_of_error (bind_error hrun)).mpr ((hhead S).error hrun)
      | ok a T =>
          have hdone := (hhead S).ok hrun
          refine (ends_congr (bind_ok hrun)).mpr ((hrest a S T hrun T).mono ?_ ?_)
          · exact fun _ _ hlater => hR.trans hdone hlater
          · exact fun _ _ hlater => hR.trans hdone hlater
  | scopes _ _ hrest => exact hrest S S
  | leaf hleaf => exact hR.leaf _ _ hleaf
  | opening target label brace => exact hR.opening _ _ _ _
  | close closing => exact hR.close _ _

section
variable {R : Scopes → Scopes → Prop} (hR : Scopes.Growth R)
  (hcomments : ∀ scopes comments, R scopes (scopes.add (commentItems config comments)))

include hR hcomments

/-- Where placing comments is allowed, too, so is a turn. -/
theorem turn_grows (S : Session) :
    Ends (turn config) S (fun _ T => R S.scopes T.scopes) fun _ T => R S.scopes T.scopes := by
  cases hpeek : peek .declaration S.reader with
  | error fault r => exact (ends_of_error (turn_of_peek_error hpeek)).mpr (hR.refl _)
  | ok token r =>
      have hplaced := hcomments S.scopes r.comments
      refine (ends_congr (turn_of_peek hpeek)).mpr (((act_builds token).grows hR _).mono ?_ ?_)
      · exact fun _ _ hacted => hR.trans hplaced hacted
      · exact fun _ _ hacted => hR.trans hplaced hacted

/-- So are all turns.  The induction is on how many there may be. -/
theorem turnsUpTo_grows (limit : Nat) (S : Session) :
    Ends (turnsUpTo config limit) S (fun _ T => R S.scopes T.scopes)
      fun _ T => R S.scopes T.scopes := by
  induction limit generalizing S with
  | zero => exact hR.refl _
  | succ limit ih =>
      unfold turnsUpTo
      cases hturn : turn config S with
      | error fault T =>
          have hfirst := (turn_grows hR hcomments S).error hturn
          exact (ends_of_error (bind_error hturn)).mpr hfirst
      | ok again T =>
          have hfirst := (turn_grows hR hcomments S).ok hturn
          refine (ends_congr (bind_ok hturn)).mpr ?_
          cases again with
          | false => exact hfirst
          | true =>
              apply (ih T).mono
              · exact fun _ _ hlater => hR.trans hfirst hlater
              · exact fun _ _ hlater => hR.trans hfirst hlater

end

/-! ## The comments collected before -/

/-- The session whose reader still has these comments from before. -/
def Session.recalling (log : List Token) (S : Session) : Session :=
  ⟨S.reader.recalling log, S.scopes⟩

/-- The program does not look at the comments collected before. -/
theorem Builds.recalling {p : Builder α} (h : Builds p) (log : List Token) (S : Session) :
    Shadows (Session.recalling log) p p S := by
  induction h generalizing S with
  | pure a => exact shadows_pure a S
  | reject error => exact shadows_throw _ S
  | @parsing _ p looks =>
      have hview := looks.recalling log S.reader
      unfold Shadows at hview ⊢
      unfold Grammar.parsing
      cases hp : p S.reader <;> simp [Session.recalling, hview, hp, viewed]
  | bind _ _ hhead hrest => exact (hhead S).bind fun a T hrun => hrest a S T hrun T
  | @scopes _ f same _ hrest =>
      have hview := hrest S S
      unfold Shadows at hview ⊢
      rw [get_bind, get_bind, same (S.recalling log) S rfl]
      exact hview
  | leaf _ => rfl
  | opening => rfl
  | close => rfl

/-- The program logs the comments that it passes over. -/
theorem Builds.logs {p : Builder α} {source : Text} (h : Builds p) (S : Session)
    (hS : S.reader.Logs source) :
    Ends p S (fun _ T => T.reader.Logs source) fun _ T => ∃ stop, Logged source T.reader.comments stop := by
  induction h generalizing S with
  | pure a => exact hS
  | reject error => exact ⟨_, hS.logged⟩
  | parsing looks =>
      rw [ends_parsing]
      exact looks.logs S.reader hS
  | @bind _ _ p f _ _ hhead hrest =>
      cases hrun : p S with
      | error fault T => exact (ends_of_error (bind_error hrun)).mpr ((hhead S hS).error hrun)
      | ok a T =>
          have hlogs := (hhead S hS).ok hrun
          exact (ends_congr (bind_ok hrun)).mpr (hrest a S T hrun T hlogs)
  | scopes _ _ hrest => exact hrest S S hS
  | leaf _ => exact hS
  | opening => exact hS
  | close => exact hS

/-! ## A text that is continued -/

/-- What looking ahead and consuming keeps of the reader, the program keeps. -/
theorem Builds.keeps {p : Builder α} {I : Reader → Prop}
    (hI : ∀ {β : Type} {q : Parser β}, Looks q → ∀ r, I r → Ends q r (fun _ => I) fun _ _ => True)
    (h : Builds p) (S : Session) (hS : I S.reader) :
    Ends p S (fun _ T => I T.reader) fun _ _ => True := by
  induction h generalizing S with
  | pure a => exact hS
  | reject error => trivial
  | parsing looks =>
      rw [ends_parsing]
      exact hI looks S.reader hS
  | @bind _ _ p f _ _ hhead hrest =>
      cases hrun : p S with
      | error fault T => exact (ends_of_error (bind_error hrun)).mpr trivial
      | ok a T =>
          exact (ends_congr (bind_ok hrun)).mpr (hrest a S T hrun T ((hhead S hS).ok hrun))
  | scopes _ _ hrest => exact hrest S S hS
  | leaf _ => exact hS
  | opening => exact hS
  | close => exact hS

/-- The session whose reader stands at the same place of the longer text. -/
def Session.extend (further : Text) (S : Session) : Session :=
  ⟨S.reader.extend further, S.scopes⟩

/-- The program does on the longer text what it does on the shorter one, as long as it does not see
the end of that.  The induction is on how it is put together. -/
theorem Builds.extend {p : Builder α} {a : α} {S T : Session} (h : Builds p) (further : Text)
    (hS : S.reader.Lined) (hrun : p S = .ok a T) (hT : ¬ T.reader.Spent) :
    p (S.extend further) = .ok a (T.extend further) := by
  induction h generalizing S T with
  | pure a =>
      cases hrun
      rfl
  | reject error => cases hrun
  | @parsing _ q looks =>
      cases hq : q S.reader with
      | error fault r => cases (parsing_error hq).symm.trans hrun
      | ok value r =>
          cases (parsing_ok hq).symm.trans hrun
          exact parsing_ok (looks.extend further S.reader _ r hS hq hT)
  | bind head rest hhead hrest =>
      obtain ⟨b, U, hfirst, hlater⟩ := bind_eq_ok.mp hrun
      have hU : U.reader.Lined := (head.keeps (fun looks => looks.lined) S hS).ok hfirst
      have hspent : ¬ U.reader.Spent := fun hspent =>
        hT (((rest b S U hfirst).keeps (fun looks => looks.spent) U ⟨hU.sound, hspent⟩).ok hlater).2
      rw [bind_ok (hhead hS hfirst hspent)]
      exact hrest b S U hfirst hU hlater hT
  | @scopes _ f same _ hrest =>
      rw [get_bind] at hrun ⊢
      rw [same (S.extend further) S rfl]
      exact hrest S hS hrun hT
  | leaf _ =>
      cases hrun
      rfl
  | opening =>
      cases hrun
      rfl
  | close =>
      cases hrun
      rfl

/-- A turn that does not come to see the end of the shorter text is taken on the longer one, too. -/
theorem turn_extend {S T : Session} {again : Bool} (further : Text) (hS : S.reader.Lined)
    (hturn : turn config S = .ok again T) (hT : ¬ T.reader.Spent) :
    turn config (S.extend further) = .ok again (T.extend further) := by
  cases hpeek : peek .declaration S.reader with
  | error fault r => cases (turn_of_peek_error hpeek).symm.trans hturn
  | ok token r =>
      have hact : act config token (settled config r S.scopes) = .ok again T :=
        (turn_of_peek hpeek).symm.trans hturn
      obtain ⟨hshows, hr⟩ := (peek_lined _ _ hS).ok hpeek
      have hsettled : (settled config r S.scopes).reader.Lined := ⟨hr.sound.emptied, hr.ended⟩
      have hspent : ¬ (settled config r S.scopes).reader.Spent := fun hspent =>
        hT (((act_builds token).keeps (fun looks => looks.spent) _ ⟨hsettled.sound, hspent⟩).ok hact).2
      have hkind : token.kind ≠ .eof := fun heof => hspent ⟨_, token, hshows, heof⟩
      have hpeek' : peek .declaration (S.extend further).reader = .ok token (r.extend further) :=
        peek_extend hS.sound hS.ended hpeek hkind
      rw [turn_of_peek hpeek']
      exact (act_builds token).extend further hsettled hact hT

end DiagramText.Grammar
