import Mathlib

/-!
# Programs with a state and exceptions

A C++ member function that may throw is an `EStateM` program: what it has written before it throws
stays written. `outcome` is its result, returned or thrown, with the state it leaves; `wp` says
that the outcome from a state meets a postcondition, and unfolds along the program text.
`Maintains` says that a program keeps an invariant of the state, whether it returns or throws, and
`Respects` says that a program cannot tell two related states apart.
-/

namespace XCache

variable {ε σ α β : Type}

/-- What a program returns or throws, and the state it leaves behind. -/
def outcome (x : EStateM ε σ α) (s : σ) : Except ε α × σ :=
  match x s with
  | .ok a s' => (.ok a, s')
  | .error e s' => (.error e, s')

/-- Throw `e` when `c` holds. -/
def throwIf (c : Prop) [Decidable c] (e : ε) : EStateM ε σ Unit :=
  if c then throw e else pure ()

/-- The outcome of `x` from `s` meets `Q`. -/
def wp (x : EStateM ε σ α) (Q : Except ε α → σ → Prop) (s : σ) : Prop :=
  Q (outcome x s).1 (outcome x s).2

section Outcome

@[simp] theorem outcome_pure (a : α) (s : σ) :
    outcome (pure a : EStateM ε σ α) s = (.ok a, s) := rfl

@[simp] theorem outcome_throw (e : ε) (s : σ) :
    outcome (throw e : EStateM ε σ α) s = (.error e, s) := rfl

@[simp] theorem outcome_get (s : σ) :
    outcome (get : EStateM ε σ σ) s = (.ok s, s) := rfl

@[simp] theorem outcome_modify (f : σ → σ) (s : σ) :
    outcome (modify f : EStateM ε σ Unit) s = (.ok (), f s) := rfl

theorem outcome_bind (x : EStateM ε σ α) (f : α → EStateM ε σ β) (s : σ) :
    outcome (x >>= f) s =
      match outcome x s with
      | (.ok a, s') => outcome (f a) s'
      | (.error e, s') => (.error e, s') := by
  simp only [outcome, bind, EStateM.bind]
  cases x s <;> rfl

theorem outcome_bind_ok {x : EStateM ε σ α} {s s' : σ} {a : α} (h : outcome x s = (.ok a, s'))
    (f : α → EStateM ε σ β) : outcome (x >>= f) s = outcome (f a) s' := by
  rw [outcome_bind, h]

theorem outcome_bind_error {x : EStateM ε σ α} {s s' : σ} {e : ε}
    (h : outcome x s = (.error e, s')) (f : α → EStateM ε σ β) :
    outcome (x >>= f) s = (.error e, s') := by
  rw [outcome_bind, h]

theorem outcome_map (f : α → β) {x : EStateM ε σ α} {s s' : σ} {r : Except ε α}
    (h : outcome x s = (r, s')) : outcome (f <$> x) s = (r.map f, s') := by
  rw [map_eq_pure_bind, outcome_bind, h]
  cases r <;> rfl

theorem outcome_map_congr (f : α → β) {x y : EStateM ε σ α} {s : σ}
    (h : outcome x s = outcome y s) :
    outcome (f <$> x) s = outcome (f <$> y) s := by
  rw [map_eq_pure_bind, map_eq_pure_bind, outcome_bind, outcome_bind, h]

/-- A handler goes on from the state in which the exception was thrown. -/
theorem outcome_tryCatch (x : EStateM ε σ α) (handle : ε → EStateM ε σ α) (s : σ) :
    outcome (tryCatch x handle) s =
      match outcome x s with
      | (.ok a, s') => (.ok a, s')
      | (.error e, s') => outcome (handle e) s' := by
  simp only [outcome, tryCatch, tryCatchThe, MonadExceptOf.tryCatch, EStateM.tryCatch]
  cases x s <;> rfl

theorem outcome_throwIf (c : Prop) [Decidable c] (e : ε) (s : σ) :
    outcome (throwIf c e : EStateM ε σ Unit) s = (if c then .error e else .ok (), s) := by
  unfold throwIf
  split_ifs <;> rfl

/-- A check that does not throw. -/
theorem outcome_bind_throwIf {c : Prop} [Decidable c] (h : ¬ c) (e : ε)
    (f : Unit → EStateM ε σ β) (s : σ) : outcome (throwIf c e >>= f) s = outcome (f ()) s :=
  outcome_bind_ok (by rw [outcome_throwIf, if_neg h]) f

theorem outcome_bind_throws {c : Prop} [Decidable c] (h : c) (e : ε)
    (f : Unit → EStateM ε σ β) (s : σ) : outcome (throwIf c e >>= f) s = (.error e, s) :=
  outcome_bind_error (by rw [outcome_throwIf, if_pos h]) f

end Outcome

section Wp

variable {Q R : Except ε α → σ → Prop} {s : σ}

theorem wp_mono {x : EStateM ε σ α} (h : wp x Q s) (hQR : ∀ r t, Q r t → R r t) : wp x R s :=
  hQR _ _ h

theorem wp_of_forall {x : EStateM ε σ α} (h : ∀ r t, Q r t) : wp x Q s := h _ _

theorem wp_pure {a : α} : wp (pure a) Q s ↔ Q (.ok a) s := Iff.rfl

theorem wp_throw {e : ε} : wp (throw e) Q s ↔ Q (.error e) s := Iff.rfl

theorem wp_get {Q : Except ε σ → σ → Prop} : wp get Q s ↔ Q (.ok s) s := Iff.rfl

theorem wp_modify {Q : Except ε Unit → σ → Prop} {f : σ → σ} :
    wp (modify f) Q s ↔ Q (.ok ()) (f s) := Iff.rfl

/-- The sequencing rule: the rest of the program runs only if the first part returned. -/
theorem wp_bind {x : EStateM ε σ α} {f : α → EStateM ε σ β} {Q : Except ε β → σ → Prop} :
    wp (x >>= f) Q s ↔
      wp x (fun r t => match r with
        | .ok a => wp (f a) Q t
        | .error e => Q (.error e) t) s := by
  unfold wp
  rw [outcome_bind]
  rcases outcome x s with ⟨_ | _, t⟩ <;> exact Iff.rfl

theorem wp_bind_ok {x : EStateM ε σ α} {f : α → EStateM ε σ β} {Q : Except ε β → σ → Prop}
    {a : α} {s' : σ} (h : outcome x s = (.ok a, s')) : wp (x >>= f) Q s ↔ wp (f a) Q s' := by
  rw [wp, outcome_bind_ok h]
  exact Iff.rfl

theorem wp_bind_error {x : EStateM ε σ α} {f : α → EStateM ε σ β} {Q : Except ε β → σ → Prop}
    {e : ε} {s' : σ} (h : outcome x s = (.error e, s')) : wp (x >>= f) Q s ↔ Q (.error e) s' := by
  rw [wp, outcome_bind_error h]

theorem wp_throwIf {c : Prop} [Decidable c] {e : ε} {Q : Except ε Unit → σ → Prop} :
    wp (throwIf c e) Q s ↔ (c → Q (.error e) s) ∧ (¬ c → Q (.ok ()) s) := by
  unfold throwIf
  split_ifs with h <;> simp [h, wp_pure, wp_throw]

theorem wp_ite {c : Prop} [Decidable c] {x y : EStateM ε σ α} :
    wp (if c then x else y) Q s ↔ (c → wp x Q s) ∧ (¬ c → wp y Q s) := by
  split_ifs with h <;> simp [h]

end Wp

section Upholds

/-- `x` is `y` with assertions, which throw `e`: none of them fails, `y` does not end in `e` either,
and its outcome meets `Q`. -/
def Upholds (e : ε) (x y : EStateM ε σ α) (Q : Except ε α → σ → Prop) (s : σ) : Prop :=
  outcome x s = outcome y s ∧ wp y (fun r t => r ≠ .error e ∧ Q r t) s

variable {e : ε} {Q : Except ε α → σ → Prop} {R : Except ε β → σ → Prop} {s : σ}

theorem Upholds.of_wp {y : EStateM ε σ α} (h : wp y (fun r t => r ≠ .error e ∧ Q r t) s) :
    Upholds e y y Q s := ⟨rfl, h⟩

theorem Upholds.pure {a : α} (h : Q (.ok a) s) :
    Upholds e (Pure.pure a : EStateM ε σ α) (Pure.pure a) Q s := .of_wp ⟨nofun, h⟩

theorem Upholds.throw {e' : ε} (hne : e' ≠ e) (h : Q (.error e') s) :
    Upholds e (MonadExcept.throw e' : EStateM ε σ α) (MonadExcept.throw e') Q s :=
  .of_wp ⟨fun he => hne (Except.error.inj he), h⟩

theorem Upholds.bind {x y : EStateM ε σ α} {f g : α → EStateM ε σ β} (h : Upholds e x y Q s)
    (herr : ∀ e' t, Q (.error e') t → R (.error e') t)
    (hok : ∀ a t, Q (.ok a) t → Upholds e (f a) (g a) R t) :
    Upholds e (x >>= f) (y >>= g) R s := by
  obtain ⟨heq, hy⟩ := h
  unfold wp at hy
  rcases hs : outcome y s with ⟨e' | a, t⟩
  · rw [hs] at heq hy
    rw [Upholds, outcome_bind_error heq, outcome_bind_error hs, wp_bind_error hs]
    exact ⟨rfl, fun he => hy.1 (congrArg Except.error (Except.error.inj he)), herr e' t hy.2⟩
  · rw [hs] at heq hy
    rw [Upholds, outcome_bind_ok heq, outcome_bind_ok hs, wp_bind_ok hs]
    exact hok a t hy.2

theorem Upholds.get {f g : σ → EStateM ε σ α} (h : Upholds e (f s) (g s) Q s) :
    Upholds e (MonadState.get >>= f) (MonadState.get >>= g) Q s := h

theorem Upholds.modify {u : σ → σ} {f g : Unit → EStateM ε σ α}
    (h : Upholds e (f ()) (g ()) Q (u s)) :
    Upholds e (modify u >>= f) (modify u >>= g) Q s := h

theorem Upholds.ite {c : Prop} [Decidable c] {x x' y y' : EStateM ε σ α}
    (hc : c → Upholds e x y Q s) (hn : ¬ c → Upholds e x' y' Q s) :
    Upholds e (if c then x else x') (if c then y else y') Q s := by
  split_ifs with h
  · exact hc h
  · exact hn h

/-- A check that is in both programs. -/
theorem Upholds.throwIf {c : Prop} [Decidable c] {e' : ε} {f g : Unit → EStateM ε σ α}
    (hc : c → e' ≠ e ∧ Q (.error e') s) (hn : ¬ c → Upholds e (f ()) (g ()) Q s) :
    Upholds e (XCache.throwIf c e' >>= f) (XCache.throwIf c e' >>= g) Q s := by
  unfold XCache.throwIf
  split_ifs with h
  · exact ⟨rfl, fun he => (hc h).1 (Except.error.inj he), (hc h).2⟩
  · exact hn h

/-- An assertion that holds. -/
theorem Upholds.assert {c : σ → Prop} [DecidablePred c] {x y : EStateM ε σ α} (hc : c s)
    (h : Upholds e x y Q s) :
    Upholds e ((MonadState.get >>= fun t => XCache.throwIf (¬ c t) e) >>= fun _ => x) y Q s := by
  refine ⟨?_, h.2⟩
  have hok : outcome (MonadState.get >>= fun t => XCache.throwIf (¬ c t) e : EStateM ε σ Unit) s
      = (.ok (), s) := by
    show outcome (XCache.throwIf (¬ c s) e) s = _
    rw [outcome_throwIf, if_neg (not_not.2 hc)]
  rw [outcome_bind_ok hok]
  exact h.1

end Upholds

section Maintains

/-- `I` holds after `x`, returned or thrown, if it did before. -/
def Maintains (I : σ → Prop) (x : EStateM ε σ α) : Prop := ∀ s, I s → I (outcome x s).2

variable {I : σ → Prop}

theorem Maintains.pure (a : α) : Maintains I (Pure.pure a : EStateM ε σ α) := fun _ h => h

theorem Maintains.throw (e : ε) : Maintains I (MonadExcept.throw e : EStateM ε σ α) :=
  fun _ h => h

theorem Maintains.modify {f : σ → σ} (hf : ∀ s, I s → I (f s)) :
    Maintains I (modify f : EStateM ε σ Unit) := hf

theorem Maintains.ite {c : Prop} [Decidable c] {x y : EStateM ε σ α} (hx : Maintains I x)
    (hy : Maintains I y) : Maintains I (if c then x else y) := by
  split_ifs
  · exact hx
  · exact hy

theorem Maintains.bind {x : EStateM ε σ α} {f : α → EStateM ε σ β} (hx : Maintains I x)
    (hf : ∀ a, Maintains I (f a)) : Maintains I (x >>= f) := by
  intro s h
  have h' := hx s h
  rw [outcome_bind]
  rcases hs : outcome x s with ⟨e | a, t⟩
  · rwa [hs] at h'
  · rw [hs] at h'
    exact hf a t h'

theorem Maintains.map (f : α → β) {x : EStateM ε σ α} (hx : Maintains I x) :
    Maintains I (f <$> x) := by
  rw [map_eq_pure_bind]
  exact hx.bind fun a => .pure (f a)

/-- A program that reads the state, in which `I` holds. -/
theorem Maintains.get {f : σ → EStateM ε σ α} (hf : ∀ s, I s → I (outcome (f s) s).2) :
    Maintains I (MonadState.get >>= f) := hf

end Maintains

section Respects

/-- Related states give the same result and related states. -/
def Respects (R : σ → σ → Prop) (x : EStateM ε σ α) : Prop :=
  ∀ s t, R s t → (outcome x s).1 = (outcome x t).1 ∧ R (outcome x s).2 (outcome x t).2

variable {R : σ → σ → Prop}

theorem Respects.pure (a : α) : Respects R (Pure.pure a : EStateM ε σ α) :=
  fun _ _ h => ⟨rfl, h⟩

theorem Respects.throw (e : ε) : Respects R (MonadExcept.throw e : EStateM ε σ α) :=
  fun _ _ h => ⟨rfl, h⟩

theorem Respects.throwIf (c : Prop) [Decidable c] (e : ε) :
    Respects R (throwIf c e : EStateM ε σ Unit) := by
  intro s t h
  rw [outcome_throwIf, outcome_throwIf]
  exact ⟨rfl, h⟩

theorem Respects.modify {f : σ → σ} (hf : ∀ s t, R s t → R (f s) (f t)) :
    Respects R (modify f : EStateM ε σ Unit) :=
  fun s t h => ⟨rfl, hf s t h⟩

theorem Respects.ite {c : Prop} [Decidable c] {x y : EStateM ε σ α} (hx : Respects R x)
    (hy : Respects R y) : Respects R (if c then x else y) := by
  split_ifs
  · exact hx
  · exact hy

theorem Respects.bind {x : EStateM ε σ α} {f : α → EStateM ε σ β} (hx : Respects R x)
    (hf : ∀ a, Respects R (f a)) : Respects R (x >>= f) := by
  intro s t h
  obtain ⟨h1, h2⟩ := hx s t h
  rw [outcome_bind, outcome_bind]
  rcases hs : outcome x s with ⟨r, s'⟩
  rcases ht : outcome x t with ⟨r', t'⟩
  rw [hs, ht] at h1 h2
  simp only at h1 h2
  subst h1
  cases r with
  | ok a => exact hf a s' t' h2
  | error e => exact ⟨rfl, h2⟩

theorem Respects.map (f : α → β) {x : EStateM ε σ α} (hx : Respects R x) :
    Respects R (f <$> x) := by
  rw [map_eq_pure_bind]
  exact hx.bind fun a => .pure (f a)

/-- A program that reads the state, and of it only what related states agree on. -/
theorem Respects.read {f : σ → EStateM ε σ α} (heq : ∀ s t, R s t → f s = f t)
    (hf : ∀ s, Respects R (f s)) : Respects R (get >>= f) := by
  intro s t h
  rw [outcome_bind, outcome_bind]
  simp only [outcome_get, heq s t h]
  exact hf t s t h

end Respects

end XCache
