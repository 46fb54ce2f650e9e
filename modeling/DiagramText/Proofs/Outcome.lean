import DiagramText.Reader

/-!
# Outcomes of parsers and builders

Parsers and builders take a state and end either with a value and a new state
or with a fault.  `Ends p s post fail` says what holds at either end: `post` of
the value and the state after it, `fail` of the fault and the state at it.
What is known of a sequence is put together from what is known of its parts by
`Ends.bind` and `Ends.mono`; no later proof unfolds the monad.

The predicate serves three purposes, told apart by `fail`: with a failure that
is ruled out it says that the program succeeds, with one that is allowed it
says what every success gives, and with `fault ≠ .stalled` it says that no
repetition runs out of turns.

`Mirrors lost p s q t post` compares two programs: whatever `p` gives, `q` gives
something that `post` relates to it, and `q` can fail only if `lost`.
`Shadows view p q s` says that `q` does to a view of the state what `p` does to
the state itself.
-/

namespace DiagramText

section
variable {ε σ α β : Type}

/-- What holds when `p` ends that was started in the state `s`. -/
def Ends (p : EStateM ε σ α) (s : σ) (post : α → σ → Prop) (fail : ε → σ → Prop) : Prop :=
  match p s with
  | .ok a t => post a t
  | .error e t => fail e t

variable {p : EStateM ε σ α} {f : α → EStateM ε σ β} {s : σ}
  {post post' : α → σ → Prop} {fail fail' : ε → σ → Prop}

/-- A program that succeeds ends as its result does. -/
theorem ends_of_ok {a : α} {t : σ} (h : p s = .ok a t) : Ends p s post fail ↔ post a t := by
  simp [Ends, h]

/-- A program that fails ends as its fault does. -/
theorem ends_of_error {e : ε} {t : σ} (h : p s = .error e t) :
    Ends p s post fail ↔ fail e t := by
  simp [Ends, h]

/-- What holds at the end holds of a result. -/
theorem Ends.ok (h : Ends p s post fail) {a : α} {t : σ} (hp : p s = .ok a t) : post a t :=
  (ends_of_ok hp).mp h

/-- What holds at the end holds of a fault. -/
theorem Ends.error (h : Ends p s post fail) {e : ε} {t : σ} (hp : p s = .error e t) :
    fail e t :=
  (ends_of_error hp).mp h

/-- Less may be said of both ends. -/
theorem Ends.mono (h : Ends p s post fail) (hpost : ∀ a t, post a t → post' a t)
    (hfail : ∀ e t, fail e t → fail' e t) : Ends p s post' fail' := by
  unfold Ends at h ⊢
  split at h
  · exact hpost _ _ h
  · exact hfail _ _ h

/-- Only what a program comes to matters. -/
theorem ends_congr {q : EStateM ε σ α} {t : σ} (h : p s = q t) :
    Ends p s post fail ↔ Ends q t post fail := by
  simp [Ends, h]

/-- The values change, the faults stay. -/
theorem Ends.imp (h : Ends p s post fail) (hpost : ∀ a t, post a t → post' a t) :
    Ends p s post' fail :=
  h.mono hpost fun _ _ hf => hf

/-- What holds of the state at both ends is weakened for both at once. -/
theorem Ends.both {keep keep' : σ → Prop} (h : Ends p s (fun _ => keep) fun _ => keep)
    (hkeep : ∀ t, keep t → keep' t) : Ends p s (fun _ => keep') fun _ => keep' :=
  h.mono (fun _ => hkeep) fun _ => hkeep

/-- Nothing need be said of either end. -/
theorem ends_true : Ends p s (fun _ _ => True) fun _ _ => True := by
  unfold Ends
  split <;> trivial

/-- What two statements say of a result holds together. -/
theorem Ends.and (h : Ends p s post fail) (h' : Ends p s post' fail') :
    Ends p s (fun a t => post a t ∧ post' a t) fail := by
  unfold Ends at h h' ⊢
  split at h
  · next hp =>
      rw [hp] at h'
      exact ⟨h, h'⟩
  · exact h

/-- A sequence ends as its rest does after its head, or as its head fails. -/
@[simp] theorem ends_bind {post : β → σ → Prop} :
    Ends (p >>= f) s post fail ↔ Ends p s (fun a t => Ends (f a) t post fail) fail := by
  unfold Ends
  simp only [bind, EStateM.bind]
  cases p s <;> rfl

/-- Sequencing: first what the head gives, then what the rest makes of it. -/
theorem Ends.bind {mid : α → σ → Prop} {post : β → σ → Prop} (h : Ends p s mid fail)
    (hf : ∀ a t, mid a t → Ends (f a) t post fail) : Ends (p >>= f) s post fail :=
  ends_bind.mpr (h.imp hf)

/-- A value that is returned leaves the state. -/
@[simp] theorem ends_pure {a : α} : Ends (pure a) s post fail ↔ post a s := Iff.rfl

/-- A fault that is thrown leaves the state. -/
@[simp] theorem ends_throw {e : ε} :
    Ends (throw e : EStateM ε σ α) s post fail ↔ fail e s := Iff.rfl

/-- Reading the state leaves it. -/
@[simp] theorem ends_get {post : σ → σ → Prop} :
    Ends (get : EStateM ε σ σ) s post fail ↔ post s s := Iff.rfl

@[simp] theorem ends_set {t : σ} {post : PUnit → σ → Prop} :
    Ends (set t : EStateM ε σ PUnit) s post fail ↔ post ⟨⟩ t := Iff.rfl

@[simp] theorem ends_modify {g : σ → σ} {post : PUnit → σ → Prop} :
    Ends (modify g : EStateM ε σ PUnit) s post fail ↔ post ⟨⟩ (g s) := Iff.rfl

/-- A choice ends as the branch that is taken. -/
theorem ends_ite {c : Prop} [Decidable c] {q : EStateM ε σ α} :
    Ends (if c then p else q) s post fail ↔
      (c → Ends p s post fail) ∧ (¬ c → Ends q s post fail) := by
  by_cases hc : c <;> simp [hc]

/-- A sequence succeeds exactly when its head and then its rest do. -/
theorem bind_eq_ok {b : β} {u : σ} :
    (p >>= f) s = .ok b u ↔ ∃ a t, p s = .ok a t ∧ f a t = .ok b u := by
  constructor
  · intro h
    simp only [bind, EStateM.bind] at h
    split at h
    · exact ⟨_, _, ‹_›, h⟩
    · cases h
  · rintro ⟨a, t, hp, hf⟩
    simp only [bind, EStateM.bind, hp, hf]

/-- After a head that succeeds a sequence is its rest. -/
theorem bind_ok {a : α} {t : σ} (h : p s = .ok a t) : (p >>= f) s = f a t := by
  simp only [bind, EStateM.bind, h]

/-- Where its head fails a sequence fails. -/
theorem bind_error {e : ε} {t : σ} (h : p s = .error e t) : (p >>= f) s = .error e t := by
  simp only [bind, EStateM.bind, h]

theorem get_bind {f : σ → EStateM ε σ β} : (get >>= f) s = f s s := rfl

/-- A program that ends well under a failure that is ruled out succeeds. -/
theorem Ends.exists_ok (h : Ends p s post fun _ _ => False) :
    ∃ a t, p s = .ok a t ∧ post a t := by
  cases hp : p s with
  | ok a t => exact ⟨a, t, rfl, h.ok hp⟩
  | error e t => exact (h.error hp).elim

end

/-! ## Two programs -/

section
variable {ε σ τ α β γ δ : Type} {lost : Prop}

/-- Whatever the first program gives, the other gives something that `post` relates to it; it fails
only if `lost`. -/
def Mirrors (lost : Prop) (p : EStateM ε σ α) (s : σ) (q : EStateM ε τ β) (t : τ)
    (post : α → σ → β → τ → Prop) : Prop :=
  ∀ a s', p s = .ok a s' → Ends q t (post a s') (fun _ _ => lost)

variable {p : EStateM ε σ α} {q : EStateM ε τ β} {f : α → EStateM ε σ γ} {g : β → EStateM ε τ δ}
  {s : σ} {t : τ}

/-- Sequencing of two programs side by side. -/
theorem Mirrors.bind {mid : α → σ → β → τ → Prop} {post : γ → σ → δ → τ → Prop}
    (h : Mirrors lost p s q t mid)
    (hf : ∀ a s' b t', mid a s' b t' → Mirrors lost (f a) s' (g b) t' post) :
    Mirrors lost (p >>= f) s (q >>= g) t post := by
  intro c s'' hrun
  obtain ⟨a, s', hp, hrest⟩ := bind_eq_ok.mp hrun
  exact (h a s' hp).bind fun b t' hmid => hf a s' b t' hmid c s'' hrest

/-- Two values that are returned have to be related. -/
theorem mirrors_pure {a : α} {b : β} {post : α → σ → β → τ → Prop} (h : post a s b t) :
    Mirrors lost (pure a : EStateM ε σ α) s (pure b : EStateM ε τ β) t post := by
  intro c s' hrun
  cases hrun
  exact h

/-- Less may be said of both results. -/
theorem Mirrors.imp {post post' : α → σ → β → τ → Prop} (h : Mirrors lost p s q t post)
    (hpost : ∀ a s' b t', post a s' b t' → post' a s' b t') : Mirrors lost p s q t post' :=
  fun a s' hrun => (h a s' hrun).imp fun b t' => hpost a s' b t'

/-- Reading both states leaves them. -/
theorem mirrors_get {post : σ → σ → τ → τ → Prop} (h : post s s t t) :
    Mirrors lost (get : EStateM ε σ σ) s (get : EStateM ε τ τ) t post := by
  intro c s' hrun
  cases hrun
  exact h

/-- Only what the programs come to matters. -/
theorem mirrors_congr {p' : EStateM ε σ α} {q' : EStateM ε τ β} {s' : σ} {t' : τ}
    {post : α → σ → β → τ → Prop} (hp : p s = p' s') (hq : q t = q' t')
    (h : Mirrors lost p' s' q' t' post) : Mirrors lost p s q t post :=
  fun a s'' hrun => (ends_congr hq).mpr (h a s'' (hp.symm.trans hrun))

/-- A first program that fails is mirrored by anything. -/
theorem mirrors_of_error {e : ε} {s' : σ} {post : α → σ → β → τ → Prop}
    (h : p s = .error e s') : Mirrors lost p s q t post :=
  fun _ _ hrun => by cases h.symm.trans hrun

/-- Both programs check the same. -/
theorem mirrors_ite {c c' : Prop} [Decidable c] [Decidable c'] {p' : EStateM ε σ α}
    {q' : EStateM ε τ β} {post : α → σ → β → τ → Prop} (hc : c ↔ c')
    (h : c → Mirrors lost p s q t post) (h' : ¬ c → Mirrors lost p' s q' t post) :
    Mirrors lost (if c then p else p') s (if c' then q else q') t post := by
  by_cases hcase : c
  · rw [if_pos hcase, if_pos (hc.mp hcase)]
    exact h hcase
  · rw [if_neg hcase, if_neg (fun hcase' => hcase (hc.mpr hcase'))]
    exact h' hcase

end

/-! ## A program seen through a view of its states -/

section
variable {ε σ τ α β : Type} {view : σ → τ}

/-- The result with the view of its state. -/
def viewed (view : σ → τ) : EStateM.Result ε σ α → EStateM.Result ε τ α
  | .ok a s => .ok a (view s)
  | .error e s => .error e (view s)

/-- What `p` comes to from a state, `q` comes to from the view of the state: the same value or
fault, and the view of the state after it. -/
def Shadows (view : σ → τ) (p : EStateM ε σ α) (q : EStateM ε τ α) (s : σ) : Prop :=
  q (view s) = viewed view (p s)

variable {p : EStateM ε σ α} {q : EStateM ε τ α} {s : σ}

/-- Sequencing of a program and its shadow. -/
theorem Shadows.bind {f : α → EStateM ε σ β} {g : α → EStateM ε τ β} (h : Shadows view p q s)
    (hf : ∀ a t, p s = .ok a t → Shadows view (f a) (g a) t) :
    Shadows view (p >>= f) (q >>= g) s := by
  unfold Shadows at h ⊢
  cases hp : p s with
  | ok a t =>
      rw [hp] at h
      rw [bind_ok hp, bind_ok h]
      exact hf a t hp
  | error e t =>
      rw [hp] at h
      rw [bind_error hp, bind_error h]
      rfl

/-- What a shadow does, its own shadow does to a view of the view. -/
theorem Shadows.comp {υ : Type} {view' : τ → υ} {q' : EStateM ε υ α} (h : Shadows view p q s)
    (h' : Shadows view' q q' (view s)) : Shadows (view' ∘ view) p q' s := by
  unfold Shadows at h h' ⊢
  rw [Function.comp_apply, h', h]
  cases p s <;> rfl

/-- A value that is returned is seen from the view. -/
theorem shadows_pure (a : α) (s : σ) :
    Shadows view (pure a : EStateM ε σ α) (pure a : EStateM ε τ α) s := rfl

/-- A fault that is thrown is seen from the view. -/
theorem shadows_throw (e : ε) (s : σ) :
    Shadows view (throw e : EStateM ε σ α) (throw e : EStateM ε τ α) s := rfl

/-- A choice is seen from the view if its branches are. -/
theorem shadows_ite {c : Prop} [Decidable c] {p' : EStateM ε σ α} {q' : EStateM ε τ α}
    (h : c → Shadows view p q s) (h' : ¬ c → Shadows view p' q' s) :
    Shadows view (if c then p else p') (if c then q else q') s := by
  by_cases hc : c
  · rw [if_pos hc, if_pos hc]
    exact h hc
  · rw [if_neg hc, if_neg hc]
    exact h' hc

end

/-! ## Checks -/

/-- A result that is checked to be no error exists. -/
theorem exists_ok_of_isOk {ε α : Type} {x : Except ε α} (h : x.isOk = true) : ∃ a, x = .ok a := by
  cases x with
  | ok a => exact ⟨a, rfl⟩
  | error e => cases h

/-- A result of which something is checked exists. -/
theorem exists_ok_of_any {ε α : Type} {x : Except ε α} {p : α → Bool}
    (h : x.toOption.any p = true) : ∃ a, x = .ok a ∧ p a = true := by
  cases x with
  | ok a => exact ⟨a, rfl, h⟩
  | error e => cases h

theorem exists_ok_of_result {ε σ α : Type} {p : EStateM ε σ α} {s : σ} {q : α → Bool}
    (h : (match p s with
      | .ok a _ => q a
      | .error .. => false) = true) : ∃ a t, p s = .ok a t ∧ q a = true := by
  cases hp : p s with
  | ok a t =>
      rw [hp] at h
      exact ⟨a, t, rfl, h⟩
  | error e t =>
      rw [hp] at h
      cases h

/-- What is left without the error is the result. -/
theorem except_toOption_eq_some {ε α : Type} {x : Except ε α} {a : α} :
    x.toOption = some a ↔ x = .ok a := by
  cases x <;> simp [Except.toOption]

/-- A function is applied to a result. -/
theorem except_map_eq_ok {ε α β : Type} {f : α → β} {x : Except ε α} {b : β} :
    x.map f = .ok b ↔ ∃ a, x = .ok a ∧ f a = b := by
  cases x <;> simp [Except.map]

/-- A sequence succeeds if its head does and then its rest. -/
theorem except_bind_eq_ok {ε α β : Type} {x : Except ε α} {f : α → Except ε β} {b : β} :
    x >>= f = .ok b ↔ ∃ a, x = .ok a ∧ f a = .ok b := by
  cases x <;> simp [bind, Except.bind]

/-- A function that is applied to a result keeps the error. -/
theorem except_map_eq_error {ε α β : Type} {f : α → β} {x : Except ε α} {e : ε} :
    x.map f = .error e ↔ x = .error e := by
  cases x <;> simp [Except.map]

/-- A sequence fails with its head or with its rest. -/
theorem except_bind_eq_error {ε α β : Type} {x : Except ε α} {f : α → Except ε β} {e : ε} :
    x >>= f = .error e ↔ x = .error e ∨ ∃ a, x = .ok a ∧ f a = .error e := by
  cases x <;> simp [bind, Except.bind]

/-- A check of all elements returns what it returns of the first one and of the others. -/
theorem mapM_cons_eq_ok {ε α β : Type} {f : α → Except ε β} {x : α} {xs : List α} {ys : List β} :
    (x :: xs).mapM f = .ok ys ↔
      ∃ y others, f x = .ok y ∧ xs.mapM f = .ok others ∧ ys = y :: others := by
  rw [List.mapM_cons, except_bind_eq_ok]
  constructor
  · rintro ⟨y, hy, h⟩
    obtain ⟨others, hothers, h⟩ := except_bind_eq_ok.mp h
    exact ⟨y, others, hy, hothers, (Except.ok.inj h).symm⟩
  · rintro ⟨y, others, hy, hothers, rfl⟩
    exact ⟨y, hy, except_bind_eq_ok.mpr ⟨others, hothers, rfl⟩⟩

/-- A check of all elements fails as one of them does. -/
theorem exists_of_mapM_eq_error {ε α β : Type} {f : α → Except ε β} {xs : List α} {e : ε}
    (h : xs.mapM f = .error e) : ∃ x ∈ xs, f x = .error e := by
  induction xs with
  | nil => cases h
  | cons x xs ih =>
      rw [List.mapM_cons, except_bind_eq_error] at h
      rcases h with hx | ⟨y, _, h⟩
      · exact ⟨x, List.mem_cons_self, hx⟩
      · rcases except_bind_eq_error.mp h with hxs | ⟨_, _, h⟩
        · obtain ⟨z, hz, hfz⟩ := ih hxs
          exact ⟨z, List.mem_cons_of_mem _ hz, hfz⟩
        · cases h

/-- Where one element fails so does a check of all, though perhaps at another. -/
theorem mapM_fails_iff {ε α β : Type} {f : α → Except ε β} {xs : List α} :
    (∃ e, xs.mapM f = .error e) ↔ ∃ x ∈ xs, ∃ e, f x = .error e := by
  constructor
  · rintro ⟨e, h⟩
    obtain ⟨x, hx, hfx⟩ := exists_of_mapM_eq_error h
    exact ⟨x, hx, e, hfx⟩
  · rintro ⟨x, hx, e, hfx⟩
    induction xs with
    | nil => cases hx
    | cons y ys ih =>
        rw [List.mapM_cons]
        cases hy : f y with
        | error e' => exact ⟨e', rfl⟩
        | ok z =>
            rcases List.mem_cons.mp hx with rfl | hlater
            · rw [hfx] at hy
              cases hy
            · obtain ⟨e', hys⟩ := ih hlater
              refine ⟨e', ?_⟩
              rw [hys]
              rfl

/-- What a check of all elements returns comes from the elements. -/
theorem mem_of_mapM_eq_ok {ε α β : Type} {f : α → Except ε β} {xs : List α} {ys : List β}
    (h : xs.mapM f = .ok ys) : ∀ y ∈ ys, ∃ x ∈ xs, f x = .ok y := by
  induction xs generalizing ys with
  | nil =>
      obtain rfl := Except.ok.inj h
      simp
  | cons x xs ih =>
      obtain ⟨y, later, hy, hlater, rfl⟩ := mapM_cons_eq_ok.mp h
      rw [List.forall_mem_cons]
      refine ⟨⟨x, List.mem_cons_self, hy⟩, ?_⟩
      intro z hz
      obtain ⟨w, hw, hfw⟩ := ih hlater z hz
      exact ⟨w, List.mem_cons_of_mem _ hw, hfw⟩

/-- What a check takes in is found in what it returns, if so it is for each element. -/
theorem map_of_mapM_eq_ok {ε α β : Type} {f : α → Except ε β} {g : β → α}
    (hfg : ∀ x y, f x = .ok y → g y = x) {xs : List α} {ys : List β} (h : xs.mapM f = .ok ys) :
    ys.map g = xs := by
  induction xs generalizing ys with
  | nil =>
      obtain rfl := Except.ok.inj h
      rfl
  | cons x xs ih =>
      obtain ⟨y, later, hy, hlater, rfl⟩ := mapM_cons_eq_ok.mp h
      rw [List.map_cons, hfg x y hy, ih hlater]

/-- Two checks agree on elements with the same key, so they agree on lists of such elements. -/
theorem mapM_mirrors {ε α β γ δ : Type} {f g : α → Except ε β} {key : α → γ} {key' : β → δ}
    (hfg : ∀ x x' y, key x' = key x → f x = .ok y → ∃ y', g x' = .ok y' ∧ key' y' = key' y)
    {xs xs' : List α} {ys : List β} (hxs : xs'.map key = xs.map key) (h : xs.mapM f = .ok ys) :
    ∃ ys', xs'.mapM g = .ok ys' ∧ ys'.map key' = ys.map key' := by
  induction xs generalizing xs' ys with
  | nil =>
      obtain rfl := List.map_eq_nil_iff.mp hxs
      obtain rfl := Except.ok.inj h
      exact ⟨[], rfl, rfl⟩
  | cons x xs ih =>
      obtain ⟨x', others, rfl, hx, hothers⟩ := List.map_eq_cons_iff.mp hxs
      obtain ⟨y, later, hy, hlater, rfl⟩ := mapM_cons_eq_ok.mp h
      obtain ⟨y', hy', hkey⟩ := hfg x x' y hx hy
      obtain ⟨later', hlater', hkeys⟩ := ih hothers hlater
      refine ⟨y' :: later', ?_, by simp [hkey, hkeys]⟩
      exact mapM_cons_eq_ok.mpr ⟨y', later', hy', hlater', rfl⟩

namespace Reader

/-- A fault that a part of a statement can come to: no repetition that consumes nothing, no block
without its closing brace, and no blocks beyond the limit. -/
def Local (fault : Fault) (_ : Reader) : Prop :=
  fault ≠ .stalled ∧ (∀ brace, fault ≠ .malformed (.unclosedBlock brace)) ∧
    ∀ limit brace, fault ≠ .malformed (.tooDeep limit brace)

@[simp] theorem ends_fail {α : Type} {error : SyntaxError} {r : Reader} {post : α → Reader → Prop}
    {fail : Fault → Reader → Prop} :
    Ends (Reader.fail error : Parser α) r post fail ↔ fail (.malformed error) r := Iff.rfl

/-- A check that fails with a syntax error, and what follows it where it does not. -/
theorem ends_guard {α : Type} {c : Prop} [Decidable c] {error : SyntaxError}
    {k : PUnit → Parser α} {r : Reader} {post : α → Reader → Prop} {fail : Fault → Reader → Prop}
    (hfail : c → fail (.malformed error) r) (hk : ¬ c → Ends (k ⟨⟩) r post fail) :
    Ends (if c then Reader.fail error >>= k else k ⟨⟩) r post fail := by
  rw [ends_ite]
  refine ⟨fun hc => ?_, hk⟩
  rw [ends_bind, ends_fail]
  exact hfail hc

end Reader

end DiagramText
