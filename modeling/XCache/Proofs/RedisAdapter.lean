import XCache.Proofs.RedisBase

/-!
# When the adapter's retry recovers

The first `command` makes its attempts; between two of them it reconnects when the connection is
lost. The adapter then replaces the context if that `command` has thrown out of a `reconnect`, and
otherwise goes on with the context as it is: with an error that only a loss of the connection makes
a further attempt clear, if there is a further attempt. So the retry recovers exactly if, at the
attempt that decides, a reply comes, or the reconnecting fails, or the connection is lost at the
last attempt and there are retries (`commandImpl_returns_iff`).
-/

namespace XCache

namespace RedisBase

variable {ρ : Type} {maxRetries : ℕ} {s t : State} {i : ℕ}

/-- With which error an attempt fails on a context without one. -/
def Commanding.fails (c : Commanding ρ) (i : ℕ) : Option Err :=
  match c.answers i with
  | .ok _ => none
  | .error err => some err

/-- With which error the first attempt fails, or a later one, on a context without error. -/
def State.fails (s : State) (c : Commanding ρ) : ℕ → Option Err
  | 0 => if s.err = none then c.fails 0 else s.err
  | i + 1 => c.fails (i + 1)

/-- The connection is lost at attempt `i`. -/
def Lost (s : State) (c : Commanding ρ) (i : ℕ) : Prop := ∃ err, s.fails c i = some err ∧ err.lost

/-- A `reconnect` after attempt `i` succeeds. -/
def Reconnects (maxRetries : ℕ) (c : Commanding ρ) (i : ℕ) : Prop :=
  ∃ j ≤ maxRetries, c.reconnects i j = none

/-- A context with this error serves a `command` to which the server answers: it has none, or one
that a `reconnect` clears between two attempts. -/
def Usable (maxRetries : ℕ) (err : Option Err) : Prop :=
  ∀ e, err = some e → e.lost = true ∧ 0 < maxRetries

/-- Attempt `i` is the one that decides, in favour: a reply comes; or the connection is lost and
cannot be regained, or was not marked as connected from the start, and the adapter can use a new
context; or the connection is lost at the last attempt and there are retries. -/
def Saves (maxRetries : ℕ) (s : State) (c : Commanding ρ) (keepAlive : Option Err) (i : ℕ) : Prop :=
  s.fails c i = none
    ∨ (i < maxRetries ∧ Lost s c i ∧ ¬ Reconnects maxRetries c i ∧ Usable maxRetries keepAlive)
    ∨ (i = maxRetries ∧ Usable maxRetries (s.fails c i))
    ∨ (i = 0 ∧ s.connected = false ∧ (Lost s c 0 → maxRetries = 0) ∧ Usable maxRetries keepAlive)

/-- Up to an attempt that decides in favour, the connection has been lost and regained. -/
def Recoverable (maxRetries : ℕ) (s : State) (c : Commanding ρ) (keepAlive : Option Err) : Prop :=
  ∃ i ≤ maxRetries, (∀ k < i, Lost s c k ∧ Reconnects maxRetries c k)
    ∧ Saves maxRetries s c keepAlive i

/-- The server accepts the connection and answers every command. -/
structure Accepts (c : Connecting) (second : Commanding ρ) : Prop where
  connections : ∀ i, c.connections i = .context none
  answers : ∀ i, ∃ reply, second.answers i = .ok reply
  reconnects : ∀ i j, second.reconnects i j = none

/-! ## What hiredis does to the context -/

theorem exists_of_ne (h : s.redisCtx ≠ none) : ∃ id, s.redisCtx = some ⟨id, s.err⟩ := by
  rcases hc : s.redisCtx with _ | ⟨id, err⟩
  · exact absurd hc h
  · exact ⟨id, by simp [State.err, hc]⟩

@[simp] theorem setErr_err (h : s.redisCtx ≠ none) (err : Option Err) :
    (s.setErr err).err = err := by
  obtain ⟨id, hc⟩ := exists_of_ne h
  show (s.redisCtx.map _).bind Context.err = err
  rw [hc]
  rfl

theorem setErr_ne (h : s.redisCtx ≠ none) (err : Option Err) :
    (s.setErr err).redisCtx ≠ none := by
  obtain ⟨id, hc⟩ := exists_of_ne h
  simp [State.setErr, hc]

/-- An attempt on a context that has an error. -/
theorem redisCommand_sticky (h : s.redisCtx ≠ none) {err : Err} (he : s.err = some err)
    (answer : Except Err ρ) : outcome (redisCommand answer) s = (.ok none, s) := by
  obtain ⟨id, hc⟩ := exists_of_ne h
  unfold redisCommand
  rw [outcome_bind_ok (outcome_get s), hc, he]
  rfl

theorem redisCommand_replies (h : s.redisCtx ≠ none) (he : s.err = none) (reply : ρ) :
    outcome (redisCommand (.ok reply)) s = (.ok (some reply), s) := by
  obtain ⟨id, hc⟩ := exists_of_ne h
  unfold redisCommand
  rw [outcome_bind_ok (outcome_get s), hc, he]
  rfl

theorem redisCommand_fails (h : s.redisCtx ≠ none) (he : s.err = none) (err : Err) :
    outcome (redisCommand (.error err : Except Err ρ)) s = (.ok none, s.setErr (some err)) := by
  obtain ⟨id, hc⟩ := exists_of_ne h
  unfold redisCommand
  rw [outcome_bind_ok (outcome_get s), hc, he]
  rfl

/-- A loop of attempts to reconnect succeeds if one of them does, and keeps the context anyway. -/
theorem reconnectLoop_spec (results : ℕ → Option Err) (left : ℕ) : ∀ (i : ℕ) (s : State),
    s.redisCtx ≠ none →
    ((∃ j ≤ left, results (i + j) = none) →
      outcome (reconnectLoop results left i) s = (.ok (), s.setErr none))
    ∧ ((∀ j ≤ left, results (i + j) ≠ none) →
      ∃ err err', outcome (reconnectLoop results left i) s
        = (.error (.reconnecting err), s.setErr err')) := by
  have hset : ∀ (s : State) (e e' : Option Err), (s.setErr e).setErr e' = s.setErr e' := by
    intro s e e'
    simp only [State.setErr, Option.map_map]
    rfl
  induction left with
  | zero =>
    intro i s hs
    rw [reconnectLoop, outcome_bind_ok (redisReconnect_eq s _)]
    refine ⟨?_, fun h => ?_⟩
    · rintro ⟨j, hj, hnone⟩
      obtain rfl : j = 0 := Nat.le_zero.1 hj
      rw [Nat.add_zero] at hnone
      rw [hnone]
      rfl
    · have hi := h 0 le_rfl
      rw [Nat.add_zero] at hi
      obtain ⟨err, herr⟩ := Option.ne_none_iff_exists'.1 hi
      rw [herr]
      exact ⟨err, some err, rfl⟩
  | succ left ih =>
    intro i s hs
    rw [reconnectLoop, outcome_bind_ok (redisReconnect_eq s _)]
    rcases herr : results i with _ | err
    · refine ⟨fun _ => rfl, fun h => absurd ?_ (h 0 (Nat.zero_le _))⟩
      exact herr
    · obtain ⟨ih₁, ih₂⟩ := ih (i + 1) (s.setErr (some err)) (setErr_ne hs _)
      refine ⟨?_, fun h => ?_⟩
      · rintro ⟨j, hj, hnone⟩
        rcases j with _ | j
        · rw [Nat.add_zero, herr] at hnone
          simp at hnone
        · have := ih₁ ⟨j, Nat.le_of_succ_le_succ hj, by rwa [Nat.add_right_comm, Nat.add_assoc]⟩
          rw [hset] at this
          exact this
      · obtain ⟨e, e', hout⟩ := ih₂ fun j hj => by
          have := h (j + 1) (Nat.succ_le_succ hj)
          rwa [Nat.add_right_comm, Nat.add_assoc]
        rw [hset] at hout
        exact ⟨e, e', hout⟩

/-- On a context, `reconnect` is its loop. -/
theorem reconnect_eq (hs : s.redisCtx ≠ none) (results : ℕ → Option Err) :
    outcome (reconnect maxRetries results) s
      = outcome (do
          reconnectLoop results maxRetries 0
          modify fun s => { s with connected := true }) { s with connected := false } := by
  rw [reconnect, outcome_bind_ok (outcome_modify _ s), outcome_bind_ok (outcome_get _),
    outcome_bind_throwIf hs]

/-- A `reconnect` that succeeds. -/
theorem reconnect_ok (hs : s.redisCtx ≠ none) {results : ℕ → Option Err}
    (h : ∃ j ≤ maxRetries, results j = none) :
    ∃ t, outcome (reconnect maxRetries results) s = (.ok (), t) ∧ t.redisCtx ≠ none
      ∧ t.err = none ∧ t.connected = true := by
  have hoff : ({ s with connected := false } : State).redisCtx ≠ none := hs
  obtain ⟨j, hj, hnone⟩ := h
  have hloop := (reconnectLoop_spec results maxRetries 0 _ hoff).1
    ⟨j, hj, by rwa [Nat.zero_add]⟩
  refine ⟨{ ({ s with connected := false } : State).setErr none with connected := true }, ?_,
    setErr_ne hoff none, setErr_err hoff none, rfl⟩
  rw [reconnect_eq hs, outcome_bind_ok hloop]
  rfl

/-- A `reconnect` that fails at each attempt. -/
theorem reconnect_fails (hs : s.redisCtx ≠ none) {results : ℕ → Option Err}
    (h : ∀ j ≤ maxRetries, results j ≠ none) :
    ∃ err t, outcome (reconnect maxRetries results) s = (.error (.reconnecting err), t)
      ∧ t.redisCtx ≠ none ∧ t.connected = false := by
  have hoff : ({ s with connected := false } : State).redisCtx ≠ none := hs
  obtain ⟨err, err', hloop⟩ := (reconnectLoop_spec results maxRetries 0 _ hoff).2
    fun j hj => by rw [Nat.zero_add]; exact h j hj
  refine ⟨err, _, ?_, setErr_ne hoff err', rfl⟩
  rw [reconnect_eq hs, outcome_bind_error hloop]

/-! ## One `command` -/

/-- An attempt that gets no reply, as its error says. -/
structure Failed (s : State) (err : Err) (t : State) : Prop where
  ctx : t.redisCtx ≠ none
  err : t.err = some err
  connected : t.connected = s.connected

/-- Without a further attempt, `command` throws. -/
theorem commandLoop_last {c : Commanding ρ} {err : Err}
    (h : outcome (redisCommand (c.answers i)) s = (.ok none, t)) (ht : Failed s err t) :
    outcome (commandLoop maxRetries c 0 i) s = (.error (.command (some err)), t) := by
  rw [commandLoop, outcome_bind_ok h]
  show outcome (get >>= fun s => throw (Failure.command s.err)) t = _
  rw [outcome_bind_ok (outcome_get t), ht.err]
  rfl

/-- When the error is no loss of the connection, the next attempt meets it again. -/
theorem commandLoop_stuck {c : Commanding ρ} {err : Err} (left : ℕ) :
    ∀ (i : ℕ) (s t : State), outcome (redisCommand (c.answers i)) s = (.ok none, t) →
      Failed s err t → err.lost = false →
      outcome (commandLoop maxRetries c left i) s = (.error (.command (some err)), t) := by
  induction left with
  | zero => exact fun i s t h ht _ => commandLoop_last h ht
  | succ left ih =>
    intro i s t h ht hlost
    rw [commandLoop, outcome_bind_ok h]
    have hnext := ih (i + 1) t t (redisCommand_sticky ht.ctx ht.err _) ⟨ht.ctx, ht.err, rfl⟩ hlost
    show outcome (get >>= fun s => _) t = _
    rw [outcome_bind_ok (outcome_get t), ht.err, if_neg (by simp [hlost])]
    exact hnext

/-- When the connection is lost, `command` reconnects before its next attempt. -/
theorem commandLoop_lost {c : Commanding ρ} {err : Err} (left : ℕ)
    (h : outcome (redisCommand (c.answers i)) s = (.ok none, t)) (ht : Failed s err t)
    (hlost : err.lost = true) :
    outcome (commandLoop maxRetries c (left + 1) i) s
      = outcome (do
          reconnect maxRetries (c.reconnects i)
          commandLoop maxRetries c left (i + 1)) t := by
  rw [commandLoop, outcome_bind_ok h]
  show outcome (get >>= fun s => _) t = _
  rw [outcome_bind_ok (outcome_get t), ht.err, if_pos (by simp [hlost])]

/-- An attempt fails as the context or the server says. -/
theorem redisCommand_failed (hs : s.redisCtx ≠ none) {c : Commanding ρ} {err : Err}
    (h : (if s.err = none then c.fails i else s.err) = some err) :
    ∃ t, outcome (redisCommand (c.answers i)) s = (.ok none, t) ∧ Failed s err t := by
  rcases he : s.err with _ | e
  · rw [if_pos he] at h
    rcases hans : c.answers i with e | reply
    · rw [Commanding.fails, hans] at h
      obtain rfl := Option.some.inj h
      exact ⟨_, redisCommand_fails hs he e, setErr_ne hs _, setErr_err hs _, rfl⟩
    · simp [Commanding.fails, hans] at h
  · rw [if_neg (by simp [he]), he] at h
    obtain rfl := Option.some.inj h
    exact ⟨s, redisCommand_sticky hs he _, hs, he, rfl⟩

/-- A reply ends the loop. -/
theorem commandLoop_replies (maxRetries i : ℕ) (hs : s.redisCtx ≠ none) {c : Commanding ρ}
    (h : (if s.err = none then c.fails i else s.err) = none) (left : ℕ) :
    ∃ reply, outcome (commandLoop maxRetries c left i) s = (.ok reply, s) := by
  have he : s.err = none := by
    by_contra hne
    rw [if_neg hne] at h
    exact hne h
  rw [if_pos he] at h
  rcases hans : c.answers i with err | reply
  · simp [Commanding.fails, hans] at h
  · refine ⟨reply, ?_⟩
    have hreply := redisCommand_replies hs he reply
    rw [← hans] at hreply
    cases left <;>
    · rw [commandLoop, outcome_bind_ok hreply]
      rfl

/-- Once the server answers, a `command` returns exactly if its context is usable. -/
theorem command_returns_iff (hs : s.redisCtx ≠ none) {c : Commanding ρ}
    (hans : ∀ i, ∃ reply, c.answers i = .ok reply) (hrec : ∀ i j, c.reconnects i j = none) :
    (∃ reply, (outcome (command maxRetries c) s).1 = .ok reply) ↔ Usable maxRetries s.err := by
  have hfails : ∀ i, c.fails i = none := fun i => by
    obtain ⟨reply, hr⟩ := hans i
    simp [Commanding.fails, hr]
  unfold command
  rcases he : s.err with _ | err
  · obtain ⟨reply, hr⟩ := commandLoop_replies maxRetries 0 hs
      (by rw [if_pos he, hfails]) maxRetries
    rw [hr]
    exact iff_of_true ⟨reply, rfl⟩ fun e h => by simp at h
  · have hsticky := redisCommand_sticky hs he (c.answers 0)
    have hfailed : Failed s err s := ⟨hs, he, rfl⟩
    by_cases hlost : err.lost = true
    · rcases maxRetries with _ | left
      · rw [commandLoop_last hsticky hfailed]
        refine iff_of_false (fun ⟨reply, h⟩ => by simp at h) fun h => ?_
        exact absurd (h err rfl).2 (lt_irrefl 0)
      · have hfirst : ∃ j ≤ left + 1, c.reconnects 0 j = none := ⟨0, Nat.zero_le _, hrec 0 0⟩
        obtain ⟨t, hrc, hctx, hterr, -⟩ := reconnect_ok hs hfirst
        obtain ⟨reply, hr⟩ := commandLoop_replies (left + 1) 1 hctx
          (by rw [if_pos hterr, hfails]) left
        rw [commandLoop_lost left hsticky hfailed hlost, outcome_bind_ok hrc, hr]
        refine iff_of_true ⟨reply, rfl⟩ fun e h => ?_
        obtain rfl := Option.some.inj h
        exact ⟨hlost, Nat.succ_pos left⟩
    · rw [commandLoop_stuck maxRetries 0 s s hsticky hfailed (by simpa using hlost)]
      refine iff_of_false (fun ⟨reply, h⟩ => by simp at h) fun h => ?_
      exact hlost (h err rfl).1

/-! ## The retry -/

/-- What `command_impl` does when its `command` has thrown. -/
def retry (maxRetries : ℕ) (second : Commanding ρ) (c : Connecting) : Call ρ := do
  let s ← get
  if s.connected then command maxRetries second
  else do
    reset maxRetries c
    command maxRetries second

/-- What a `command` that has thrown leaves is good enough for the retry. -/
def Left (maxRetries : ℕ) (keepAlive : Option Err) (t : State) : Prop :=
  if t.connected then Usable maxRetries t.err else Usable maxRetries keepAlive

theorem keepAlive_err (s : State) (result : Option Err) :
    ((s.assign (.context none)).keepAlive result).err = result := by
  cases result <;> rfl

theorem keepAlive_ne (s : State) (result : Option Err) :
    ((s.assign (.context none)).keepAlive result).redisCtx ≠ none := by
  cases result <;> simp [State.keepAlive, State.setErr, State.assign, State.noted]

theorem retry_returns_iff (ht : t.redisCtx ≠ none) {second : Commanding ρ} {c : Connecting}
    (ha : Accepts c second) :
    (∃ reply, (outcome (retry maxRetries second c) t).1 = .ok reply)
      ↔ Left maxRetries c.keepAlive t := by
  rw [retry, outcome_bind_ok (outcome_get t), Left]
  by_cases hc : t.connected = true
  · rw [if_pos hc, if_pos hc]
    exact command_returns_iff ht ha.answers ha.reconnects
  · rw [if_neg hc, if_neg hc]
    obtain ⟨u, hdis, hnull⟩ : ∃ u, outcome disconnect t = (.ok (), u) ∧ u.redisCtx = none := by
      refine ⟨_, outcome_modify _ t, ?_⟩
      obtain ⟨id, hid⟩ := exists_of_ne ht
      rw [hid]
      rfl
    have hreset : outcome (reset maxRetries c) t = (.ok (),
        { (u.assign (.context none)).keepAlive c.keepAlive with connected := true }) := by
      rw [reset, outcome_bind_ok hdis]
      exact connect_good hnull (ha.connections 0)
    rw [outcome_bind_ok hreset]
    rw [command_returns_iff ?_ ha.answers ha.reconnects]
    · show Usable maxRetries ((u.assign (.context none)).keepAlive c.keepAlive).err ↔ _
      rw [keepAlive_err]
    · exact keepAlive_ne u c.keepAlive

/-! ## The first `command` -/

/-- Where the loop of the first `command` is before attempt `i`. -/
structure At (s : State) (i : ℕ) (t : State) : Prop where
  ctx : t.redisCtx ≠ none
  first : i = 0 → t = s
  later : i ≠ 0 → t.connected = true ∧ t.err = none

/-- The first `command` returns, or throws and leaves enough for the retry. -/
def Serves (maxRetries : ℕ) (keepAlive : Option Err) : Except Failure ρ × State → Prop
  | (.ok _, _) => True
  | (.error _, t) => Left maxRetries keepAlive t

/-- The first `command` keeps a context, also where it throws. -/
def Keeps : Except Failure ρ × State → Prop
  | (.ok _, _) => True
  | (.error e, t) => e ≠ .undefined ∧ t.redisCtx ≠ none

theorem At.fails (h : At s i t) (c : Commanding ρ) :
    (if t.err = none then c.fails i else t.err) = s.fails c i := by
  rcases i with _ | i
  · rw [h.first rfl]
    rfl
  · rw [if_pos (h.later (Nat.succ_ne_zero i)).2]
    rfl

/-- Before a reconnect the connection is not marked as lost, unless it was so from the start. -/
theorem At.connected (h : At s i t) (hc : ¬ t.connected = true) : i = 0 ∧ t = s := by
  by_cases hi : i = 0
  · exact ⟨hi, h.first hi⟩
  · exact absurd (h.later hi).1 hc

section Unroll

variable {P Q : ℕ → Prop} {left : ℕ}

theorem exists_zero :
    (∃ k ≤ 0, (∀ m < k, P (i + m)) ∧ Q (i + k)) ↔ Q i := by
  refine ⟨fun ⟨k, hk, _, hQ⟩ => ?_, fun hQ => ⟨0, le_rfl, by simp, hQ⟩⟩
  obtain rfl : k = 0 := Nat.le_zero.1 hk
  exact hQ

/-- The attempt decides, or it is passed and a later one decides. -/
theorem exists_succ :
    (∃ k ≤ left + 1, (∀ m < k, P (i + m)) ∧ Q (i + k))
      ↔ Q i ∨ (P i ∧ ∃ k ≤ left, (∀ m < k, P (i + 1 + m)) ∧ Q (i + 1 + k)) := by
  refine ⟨fun ⟨k, hk, hP, hQ⟩ => ?_, ?_⟩
  · rcases k with _ | k
    · exact .inl hQ
    · refine .inr ⟨hP 0 (Nat.succ_pos k), k, Nat.le_of_succ_le_succ hk, fun m hm => ?_, ?_⟩
      · have := hP (m + 1) (Nat.succ_lt_succ hm)
        rwa [Nat.add_right_comm]
      · rwa [Nat.add_right_comm]
  · rintro (hQ | ⟨hP, k, hk, hPs, hQ⟩)
    · exact ⟨0, Nat.zero_le _, by simp, hQ⟩
    · refine ⟨k + 1, Nat.succ_le_succ hk, fun m hm => ?_, ?_⟩
      · rcases m with _ | m
        · exact hP
        · have := hPs m (Nat.lt_of_succ_lt_succ hm)
          rwa [Nat.add_right_comm] at this
      · rwa [Nat.add_right_comm] at hQ

end Unroll

section First

variable {c : Commanding ρ} {keepAlive : Option Err} {err : Err}

/-- The last attempt fails. -/
theorem saves_last (h : At s i t) (hi : i = maxRetries) (hf : s.fails c i = some err) {u : State}
    (hu : Failed t err u) : Saves maxRetries s c keepAlive i ↔ Left maxRetries keepAlive u := by
  rw [Left, hu.err, hu.connected]
  by_cases hc : t.connected = true
  · rw [if_pos hc]
    refine ⟨?_, fun husable => .inr (.inr (.inl ⟨hi, by rwa [hf]⟩))⟩
    rintro (hnone | ⟨hlt, -⟩ | ⟨-, husable⟩ | ⟨hzero, hs, -⟩)
    · simp [hf] at hnone
    · omega
    · rwa [hf] at husable
    · rw [h.first hzero, hs] at hc
      simp at hc
  · rw [if_neg hc]
    obtain ⟨hzero, rfl⟩ := h.connected hc
    refine ⟨?_, fun husable => .inr (.inr (.inr ⟨hzero, by simpa using hc, fun _ => by omega,
      husable⟩))⟩
    rintro (hnone | ⟨hlt, -⟩ | ⟨-, husable⟩ | ⟨-, -, -, husable⟩)
    · simp [hf] at hnone
    · omega
    · rw [hf] at husable
      have := (husable err rfl).2
      omega
    · exact husable

/-- An attempt fails, not for the loss of the connection, and it is not the last. -/
theorem saves_stuck (h : At s i t) (hi : i < maxRetries) (hf : s.fails c i = some err)
    (hlost : ¬ err.lost = true) {u : State} (hu : Failed t err u) :
    Saves maxRetries s c keepAlive i ↔ Left maxRetries keepAlive u := by
  have hnot : ¬ Lost s c i := fun ⟨e, he, hel⟩ => by
    rw [hf] at he
    obtain rfl := Option.some.inj he
    exact hlost hel
  rw [Left, hu.err, hu.connected]
  by_cases hc : t.connected = true
  · rw [if_pos hc]
    refine iff_of_false ?_ fun husable => hlost (husable err rfl).1
    rintro (hnone | ⟨-, hl, -⟩ | ⟨heq, -⟩ | ⟨hzero, hs, -⟩)
    · simp [hf] at hnone
    · exact hnot hl
    · omega
    · rw [h.first hzero, hs] at hc
      simp at hc
  · rw [if_neg hc]
    obtain ⟨rfl, rfl⟩ := h.connected hc
    refine ⟨?_, fun husable => .inr (.inr (.inr ⟨rfl, by simpa using hc, fun hl =>
      absurd hl hnot, husable⟩))⟩
    rintro (hnone | ⟨-, hl, -⟩ | ⟨heq, -⟩ | ⟨-, -, -, husable⟩)
    · simp [hf] at hnone
    · exact absurd hl hnot
    · omega
    · exact husable

/-- The connection is lost, not at the last attempt. -/
theorem saves_lost (hi : i < maxRetries) (hl : Lost s c i) :
    Saves maxRetries s c keepAlive i
      ↔ ¬ Reconnects maxRetries c i ∧ Usable maxRetries keepAlive := by
  refine ⟨?_, fun h => .inr (.inl ⟨hi, hl, h⟩)⟩
  rintro (hnone | ⟨-, -, h⟩ | ⟨heq, -⟩ | ⟨rfl, -, hzero, -⟩)
  · obtain ⟨err, herr, -⟩ := hl
    simp [herr] at hnone
  · exact h
  · omega
  · have := hzero hl
    omega

/-- The loop from attempt `i` on serves exactly if an attempt from there on decides in favour. -/
theorem commandLoop_serves (c : Commanding ρ) (keepAlive : Option Err) (left : ℕ) :
    ∀ (i : ℕ) (t : State), At s i t → i + left = maxRetries →
      Keeps (outcome (commandLoop maxRetries c left i) t)
      ∧ (Serves maxRetries keepAlive (outcome (commandLoop maxRetries c left i) t)
        ↔ ∃ k ≤ left, (∀ m < k, Lost s c (i + m) ∧ Reconnects maxRetries c (i + m))
          ∧ Saves maxRetries s c keepAlive (i + k)) := by
  induction left with
  | zero =>
    intro i t h hi
    rw [exists_zero (P := fun j => Lost s c j ∧ Reconnects maxRetries c j)
      (Q := fun j => Saves maxRetries s c keepAlive j)]
    rcases hf : s.fails c i with _ | err
    · obtain ⟨reply, hout⟩ := commandLoop_replies maxRetries i h.ctx
        ((h.fails c).trans hf) 0
      rw [hout]
      exact ⟨trivial, iff_of_true trivial (.inl hf)⟩
    · obtain ⟨u, hcmd, hu⟩ := redisCommand_failed h.ctx ((h.fails c).trans hf)
      rw [commandLoop_last hcmd hu]
      exact ⟨⟨by simp, hu.ctx⟩, (saves_last h hi hf hu).symm⟩
  | succ left ih =>
    intro i t h hi
    have hlt : i < maxRetries := by omega
    rw [exists_succ (P := fun j => Lost s c j ∧ Reconnects maxRetries c j)
      (Q := fun j => Saves maxRetries s c keepAlive j)]
    rcases hf : s.fails c i with _ | err
    · obtain ⟨reply, hout⟩ := commandLoop_replies maxRetries i h.ctx
        ((h.fails c).trans hf) (left + 1)
      rw [hout]
      exact ⟨trivial, iff_of_true trivial (.inl (.inl hf))⟩
    · obtain ⟨u, hcmd, hu⟩ := redisCommand_failed h.ctx ((h.fails c).trans hf)
      by_cases hlost : err.lost = true
      · have hl : Lost s c i := ⟨err, hf, hlost⟩
        rw [commandLoop_lost left hcmd hu hlost, saves_lost hlt hl]
        by_cases hrec : Reconnects maxRetries c i
        · obtain ⟨w, hout, hw, herr, hconn⟩ := reconnect_ok hu.ctx hrec
          have hat : At s (i + 1) w := ⟨hw, fun h => by omega, fun _ => ⟨hconn, herr⟩⟩
          rw [outcome_bind_ok hout]
          obtain ⟨hkeeps, hserves⟩ := ih (i + 1) w hat (by omega)
          refine ⟨hkeeps, hserves.trans ⟨fun hex => .inr ⟨⟨hl, hrec⟩, hex⟩, ?_⟩⟩
          rintro (⟨hnot, -⟩ | ⟨-, hex⟩)
          · exact absurd hrec hnot
          · exact hex
        · have hall : ∀ j ≤ maxRetries, c.reconnects i j ≠ none :=
            fun j hj hnone => hrec ⟨j, hj, hnone⟩
          obtain ⟨e, w, hout, hw, hconn⟩ := reconnect_fails hu.ctx hall
          rw [outcome_bind_error hout]
          refine ⟨⟨by simp, hw⟩, ?_⟩
          show Left maxRetries keepAlive w ↔ _
          rw [Left, if_neg (by simp [hconn])]
          refine ⟨fun husable => .inl ⟨hrec, husable⟩, ?_⟩
          rintro (⟨-, husable⟩ | ⟨⟨-, h⟩, -⟩)
          · exact husable
          · exact absurd h hrec
      · rw [commandLoop_stuck (left + 1) i t u hcmd hu (by simpa using hlost)]
        refine ⟨⟨by simp, hu.ctx⟩, ?_⟩
        refine (saves_stuck h hlt hf hlost hu).symm.trans ⟨.inl, ?_⟩
        rintro (hsaves | ⟨⟨⟨e, he, hel⟩, -⟩, -⟩)
        · exact hsaves
        · rw [hf] at he
          obtain rfl := Option.some.inj he
          exact absurd hel hlost

end First

/-- With a context, whatever the first `command` meets: once the server accepts every connection
and answers every command, `command_impl` returns a reply exactly if the failures before are
recoverable. -/
theorem commandImpl_returns_iff (hctx : s.redisCtx ≠ none) (first second : Commanding ρ)
    (c : Connecting) (ha : Accepts c second) :
    (∃ reply, (outcome (commandImpl maxRetries true first second c) s).1 = .ok reply)
      ↔ Recoverable maxRetries s first c.keepAlive := by
  have hat : At s 0 s := ⟨hctx, fun _ => rfl, fun h => absurd rfl h⟩
  obtain ⟨hkeeps, hserves⟩ :=
    commandLoop_serves first c.keepAlive maxRetries 0 s hat (Nat.zero_add _)
  simp only [Nat.zero_add] at hserves
  rw [Recoverable, ← hserves, commandImpl, outcome_tryCatch, command]
  rcases hout : outcome (commandLoop maxRetries first maxRetries 0) s with ⟨e | reply, t⟩
  · rw [hout] at hkeeps
    have hne : ¬ (e = .undefined ∨ true = false) := by simpa using hkeeps.1
    simp only [if_neg hne]
    exact retry_returns_iff hkeeps.2 ha
  · exact iff_of_true ⟨reply, rfl⟩ trivial

/-- The server is down while the first `command` is made, with one retry: the adapter gets its reply
over a new context. -/
theorem commandImpl_returns_iff_down :
    ∃ reply : ℕ, (outcome (commandImpl 1 true ⟨fun _ => .error .io, fun _ _ => some .io⟩
      ⟨fun _ => .ok 0, fun _ _ => none⟩ ⟨fun _ => .context none, none⟩)
      (step 1 construct (.connect ⟨fun _ => .context none, none⟩)).2).1 = .ok reply :=
  (commandImpl_returns_iff (by decide) _ _ _ ⟨fun _ => rfl, fun _ => ⟨0, rfl⟩, fun _ _ => rfl⟩).2
    ⟨0, Nat.zero_le _, by simp, .inr (.inl ⟨by decide, ⟨.io, rfl, rfl⟩, by simp [Reconnects],
      by simp [Usable]⟩)⟩

/-- A reply that breaks the protocol, once, and a loss of the connection, once, without retries:
the adapter tries the context again that has the error. -/
theorem retry_meets_error :
    (outcome (commandImpl 3 true ⟨fun _ => .error .protocol, fun _ _ => none⟩
      ⟨fun _ => .ok 0, fun _ _ => none⟩ ⟨fun _ => .context none, none⟩)
      (step 3 construct (.connect ⟨fun _ => .context none, none⟩)).2).1
        = (.error (.command (some .protocol)) : Except Failure ℕ)
      ∧ (outcome (commandImpl 0 true ⟨fun _ => .error .eof, fun _ _ => none⟩
      ⟨fun _ => .ok 0, fun _ _ => none⟩ ⟨fun _ => .context none, none⟩)
      (step 0 construct (.connect ⟨fun _ => .context none, none⟩)).2).1
        = (.error (.command (some .eof)) : Except Failure ℕ) := by
  decide

end RedisBase

end XCache
