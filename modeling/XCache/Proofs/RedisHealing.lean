import XCache.RedisAdapter
import XCache.Proofs.RedisAdapter

/-!
# Which connections heal

A context with an error answers no command until it is reconnected or replaced. `command`
reconnects after an error that is a loss of the connection, if it has an attempt left; the adapter
replaces the context if `upper_retry` is set and `connected` is not. Where neither applies the
connection stays broken, as long as nobody calls `reset`, however well the server is
(`Broken.step`); everywhere else the next command to a server that is up gets its reply
(`adapter_heals`).
-/

namespace XCache

namespace RedisBase

namespace Adapter

variable {ρ : Type} {maxRetries : ℕ} {upperRetry : Bool} {s t : State}

/-- The context has an error that no command clears. -/
def Broken (maxRetries : ℕ) (upperRetry : Bool) (s : State) : Prop :=
  ¬ Usable maxRetries s.err ∧ (upperRetry = true → s.connected = true)

/-- The server accepts every connection and answers every command. -/
structure Up (first second : Commanding ρ) (c : Connecting) : Prop where
  accepts : Accepts c second
  answers : ∀ i, ∃ reply, first.answers i = .ok reply
  reconnects : ∀ i j, first.reconnects i j = none
  keepAlive : c.keepAlive = none

theorem ctx_of_err {err : Err} (h : s.err = some err) : s.redisCtx ≠ none := by
  intro hc
  simp [State.err, hc] at h

theorem command_eq (maxRetries : ℕ) (c : Commanding ρ) :
    command maxRetries c = commandLoop maxRetries c maxRetries 0 := rfl

/-- A command on a context whose error it does not clear. -/
theorem command_unusable (h : ¬ Usable maxRetries s.err) (c : Commanding ρ) :
    ∃ err, outcome (command maxRetries c) s = (.error (.command (some err)), s) := by
  simp only [Usable, not_forall] at h
  obtain ⟨err, he, hnot⟩ := h
  have hs := ctx_of_err he
  have hsticky := redisCommand_sticky hs he (c.answers 0)
  have hfailed : Failed s err s := ⟨hs, he, rfl⟩
  refine ⟨err, ?_⟩
  rw [command_eq]
  by_cases hlost : err.lost = true
  · have hzero : maxRetries = 0 := by
      by_contra hne
      exact hnot ⟨hlost, Nat.pos_of_ne_zero hne⟩
    subst hzero
    exact commandLoop_last hsticky hfailed
  · exact commandLoop_stuck maxRetries 0 s s hsticky hfailed (by simpa using hlost)

/-- The adapter on a context whose error the command does not clear. -/
theorem commandImpl_unusable (upperRetry : Bool) (h : ¬ Usable maxRetries s.err)
    (first second : Commanding ρ) (c : Connecting) :
    ∃ err, outcome (commandImpl maxRetries upperRetry first second c) s
      = if upperRetry = false then (.error (.command (some err)), s)
        else outcome (retry maxRetries second c) s := by
  obtain ⟨err, hout⟩ := command_unusable h first
  refine ⟨err, ?_⟩
  rw [commandImpl, outcome_tryCatch, hout]
  rcases upperRetry
  · simp
  · simp only [reduceCtorEq, Bool.true_eq_false, or_self, if_false]
    rfl

theorem Broken.commandImpl (h : Broken maxRetries upperRetry s) (first second : Commanding ρ)
    (c : Connecting) :
    ∃ err, outcome (commandImpl maxRetries upperRetry first second c) s
      = (.error (.command (some err)), s) := by
  obtain ⟨err, hout⟩ := commandImpl_unusable upperRetry h.1 first second c
  rcases upperRetry
  · exact ⟨err, hout⟩
  · obtain ⟨err', hout'⟩ := command_unusable h.1 second
    refine ⟨err', hout.trans ?_⟩
    rw [if_neg (by simp), retry, outcome_bind_ok (outcome_get s), if_pos (h.2 rfl)]
    exact hout'

/-- A broken connection stays broken, and is no use. -/
theorem Broken.step (h : Broken maxRetries upperRetry s) {a : Action ρ} (ha : ∀ c, a ≠ .reset c) :
    (∃ e, (step maxRetries upperRetry s a).1 = .error e)
      ∧ (step maxRetries upperRetry s a).2 = s := by
  cases a with
  | init c =>
    have hs : s.redisCtx ≠ none := by
      intro hc
      refine h.1 fun e he => ?_
      simp [State.err, hc] at he
    have hout : outcome (connect maxRetries c) s = (.error .contextNotNull, s) :=
      connect_refused hs c
    rw [Adapter.step, call, outcome_bind_error hout]
    exact ⟨⟨_, rfl⟩, rfl⟩
  | reset c => exact absurd rfl (ha c)
  | command first second c =>
    obtain ⟨err, hout⟩ := h.commandImpl first second c
    rw [Adapter.step, call, outcome_bind_error hout]
    exact ⟨⟨_, rfl⟩, rfl⟩

/-- A connection that is not broken is mended by a command. -/
theorem commandImpl_up (hs : s.redisCtx ≠ none) (h : ¬ Broken maxRetries upperRetry s)
    {first second : Commanding ρ} {c : Connecting} (hup : Up first second c) :
    ∃ reply, (outcome (commandImpl maxRetries upperRetry first second c) s).1 = .ok reply := by
  by_cases husable : Usable maxRetries s.err
  · obtain ⟨reply, hout⟩ := (command_returns_iff hs hup.answers hup.reconnects).2 husable
    refine ⟨reply, ?_⟩
    rw [commandImpl, outcome_tryCatch]
    rcases hc : outcome (command maxRetries first) s with ⟨r, t⟩
    rw [hc] at hout
    dsimp only at hout
    rw [hout]
  · have hretry : upperRetry = true ∧ s.connected = false := by
      simp only [Broken, husable, not_false_eq_true, true_and, Classical.not_imp] at h
      exact ⟨h.1, by simpa using h.2⟩
    obtain ⟨err, hout⟩ := commandImpl_unusable upperRetry husable first second c
    rw [if_neg (by simp [hretry.1])] at hout
    rw [hout, retry_returns_iff hs hup.accepts, Left, if_neg (by simp [hretry.2]), hup.keepAlive]
    simp [Usable]

/-! ## What a reply tells -/

/-- The context has no error. -/
def State.Sound (s : State) : Prop := s.redisCtx ≠ none ∧ s.err = none

theorem redisCommand_null (hs : s.redisCtx = none) (answer : Except Err ρ) :
    outcome (redisCommand answer) s = (.error .undefined, s) := by
  unfold redisCommand
  rw [outcome_bind_ok (outcome_get s), hs]
  rfl

theorem redisCommand_sound {answer : Except Err ρ} {reply : ρ}
    (h : outcome (redisCommand answer) s = (.ok (some reply), t)) : State.Sound t := by
  by_cases hs : s.redisCtx = none
  · rw [redisCommand_null hs] at h
    simp at h
  rcases he : s.err with _ | err
  · rcases answer with err | reply'
    · rw [redisCommand_fails hs he] at h
      simp at h
    · rw [redisCommand_replies hs he] at h
      obtain rfl : s = t := (Prod.mk.inj h).2
      exact ⟨hs, he⟩
  · rw [redisCommand_sticky hs he] at h
    simp at h

/-- The context that a reply has come on has no error. -/
theorem commandLoop_sound {c : Commanding ρ} : ∀ (left i : ℕ) {s t : State} {reply : ρ},
    outcome (commandLoop maxRetries c left i) s = (.ok reply, t) → State.Sound t := by
  intro left
  induction left with
  | zero =>
    intro i s t reply h
    rw [commandLoop, outcome_bind] at h
    rcases hr : outcome (redisCommand (c.answers i)) s with ⟨e | r | r, u⟩
    · rw [hr] at h
      simp at h
    · rw [hr] at h
      dsimp only at h
      rw [outcome_bind_ok (outcome_get u)] at h
      cases h
    · rw [hr] at h
      obtain rfl : u = t := (Prod.mk.inj h).2
      exact redisCommand_sound hr
  | succ left ih =>
    intro i s t reply h
    rw [commandLoop, outcome_bind] at h
    rcases hr : outcome (redisCommand (c.answers i)) s with ⟨e | r | r, u⟩
    · rw [hr] at h
      simp at h
    · rw [hr] at h
      dsimp only at h
      rw [outcome_bind_ok (outcome_get u), outcome_bind] at h
      split at h
      · exact ih (i + 1) h
      · simp at h
    · rw [hr] at h
      obtain rfl : u = t := (Prod.mk.inj h).2
      exact redisCommand_sound hr

theorem commandImpl_sound {first second : Commanding ρ} {c : Connecting} {reply : ρ}
    (h : outcome (commandImpl maxRetries upperRetry first second c) s = (.ok reply, t)) :
    State.Sound t := by
  rw [commandImpl, outcome_tryCatch] at h
  rcases hr : outcome (command maxRetries first) s with ⟨e | r, u⟩
  · rw [hr] at h
    dsimp only at h
    split_ifs at h
    · simp at h
    · rw [outcome_bind_ok (outcome_get u)] at h
      split_ifs at h
      · exact commandLoop_sound maxRetries 0 h
      · rw [outcome_bind] at h
        split at h
        · exact commandLoop_sound maxRetries 0 h
        · simp at h
  · rw [hr] at h
    obtain rfl : u = t := (Prod.mk.inj h).2
    exact commandLoop_sound maxRetries 0 hr

theorem command_null (hs : s.redisCtx = none) (c : Commanding ρ) :
    outcome (command maxRetries c) s = (.error .undefined, s) := by
  unfold command
  cases maxRetries with
  | zero =>
    rw [commandLoop]
    exact outcome_bind_error (redisCommand_null hs _) _
  | succ left =>
    rw [commandLoop]
    exact outcome_bind_error (redisCommand_null hs _) _

theorem step_command (first second : Commanding ρ) (c : Connecting) {r : Except Failure ρ}
    (h : outcome (commandImpl maxRetries upperRetry first second c) s = (r, t)) :
    step maxRetries upperRetry s (.command first second c) = (r.map some, t) := by
  rcases r with e | reply
  · exact outcome_bind_error h _
  · exact outcome_bind_ok h _

theorem run_broken (h : Broken maxRetries upperRetry s) : ∀ {as : List (Action ρ)},
    (∀ a ∈ as, ∀ c, a ≠ .reset c) →
    (run (step maxRetries upperRetry) s as).2 = s
      ∧ ∀ o ∈ (run (step maxRetries upperRetry) s as).1, ∃ e, o = .error e
  | [], _ => ⟨rfl, by simp⟩
  | a :: as, has => by
    obtain ⟨hfails, hsame⟩ := h.step (has a List.mem_cons_self)
    obtain ⟨hrun, hall⟩ := run_broken h fun b hb => has b (List.mem_cons_of_mem a hb)
    rw [run_cons, hsame]
    refine ⟨hrun, fun o ho => ?_⟩
    rcases List.mem_cons.1 ho with rfl | ho
    · exact hfails
    · exact hall o ho

/-- For the adapter, in any state. Without a context, as before `init` and after a `reset` for which
there was no memory, a command uses a null pointer. A broken connection stays as it is and every
call fails until there is a `reset`, whatever the server does; any other is mended by the next
command to a server that is up. And a command that gets its reply leaves a connection that is not
broken. -/
theorem adapter_heals (maxRetries : ℕ) (upperRetry : Bool) (s : State) :
    (s.redisCtx = none → ∀ (first second : Commanding ρ) (c : Connecting),
        (step maxRetries upperRetry s (.command first second c)).1 = .error .undefined)
      ∧ (Broken maxRetries upperRetry s → ∀ as : List (Action ρ),
        (∀ a ∈ as, ∀ c, a ≠ .reset c) →
          (run (step maxRetries upperRetry) s as).2 = s
            ∧ ∀ o ∈ (run (step maxRetries upperRetry) s as).1, ∃ e, o = .error e)
      ∧ (s.redisCtx ≠ none → ¬ Broken maxRetries upperRetry s →
        ∀ (first second : Commanding ρ) (c : Connecting), Up first second c → ∃ reply,
          (step maxRetries upperRetry s (.command first second c)).1 = .ok (some reply))
      ∧ ∀ (first second : Commanding ρ) (c : Connecting) (reply : ρ),
        (step maxRetries upperRetry s (.command first second c)).1 = .ok (some reply) →
          (step maxRetries upperRetry s (.command first second c)).2.redisCtx ≠ none
            ∧ ¬ Broken maxRetries upperRetry
              (step maxRetries upperRetry s (.command first second c)).2 := by
  refine ⟨fun hs first second c => ?_, fun hbroken as has => run_broken hbroken has,
    fun hs hnot first second c hup => ?_, fun first second c reply hreply => ?_⟩
  · have hout : outcome (commandImpl maxRetries upperRetry first second c) s
        = (.error .undefined, s) := by
      rw [commandImpl, outcome_tryCatch, command_null hs]
      rfl
    rw [step_command first second c hout]
    rfl
  · obtain ⟨reply, hout⟩ := commandImpl_up hs hnot hup
    rw [step_command first second c (Prod.ext hout rfl)]
    exact ⟨reply, rfl⟩
  · rcases hout : outcome (commandImpl maxRetries upperRetry first second c) s with ⟨e | r, t⟩
    · rw [step_command first second c hout] at hreply
      simp [Except.map] at hreply
    · obtain ⟨hctx, herr⟩ := commandImpl_sound hout
      rw [step_command first second c hout]
      refine ⟨hctx, fun hbroken => hbroken.1 fun e he => ?_⟩
      rw [herr] at he
      simp at he

/-! ## Where nothing breaks -/

/-- There is a context, and no error that reconnecting does not clear. -/
def Mendable (s : State) : Prop := s.redisCtx ≠ none ∧ ∀ e, s.err = some e → e.lost = true

/-- The errors are losses of the connection, and there is memory for a context. -/
structure Connecting.Losses (c : Connecting) : Prop where
  memory : ∀ i, c.connections i ≠ .null
  connections : ∀ i e, c.connections i = .context (some e) → e.lost = true
  keepAlive : ∀ e, c.keepAlive = some e → e.lost = true

structure Commanding.Losses (c : Commanding ρ) : Prop where
  answers : ∀ i e, c.answers i = .error e → e.lost = true
  reconnects : ∀ i j e, c.reconnects i j = some e → e.lost = true

def Action.Losses : Action ρ → Prop
  | .init c | .reset c => Connecting.Losses c
  | .command first second c =>
    Commanding.Losses first ∧ Commanding.Losses second ∧ Connecting.Losses c

theorem Mendable.setErr (h : Mendable s) {err : Option Err}
    (herr : ∀ e, err = some e → e.lost = true) : Mendable (s.setErr err) :=
  ⟨setErr_ne h.1 err, fun e he => herr e (by rwa [setErr_err h.1] at he)⟩

theorem mendable_assign (s : State) {err : Option Err} (herr : ∀ e, err = some e → e.lost = true) :
    Mendable (s.assign (.context err)) := ⟨by simp [State.assign, State.noted], herr⟩

theorem mendable_connectLoop {connections : ℕ → Connection} (hmem : ∀ i, connections i ≠ .null)
    (herr : ∀ i e, connections i = .context (some e) → e.lost = true) (left : ℕ) :
    ∀ (i : ℕ) (s : State), Mendable (outcome (connectLoop connections left i) s).2 := by
  induction left with
  | zero =>
    intro i s
    rw [connectLoop]
    rcases hc : connections i with _ | _ | err
    · exact absurd hc (hmem i)
    · rw [outcome_bind_ok (tryConnect_context s _)]
      exact mendable_assign s (by simp)
    · rw [outcome_bind_ok (tryConnect_context s _)]
      exact mendable_assign s fun e he => herr i e (hc.trans (by rw [he]))
  | succ left ih =>
    intro i s
    rw [connectLoop]
    rcases hc : connections i with _ | _ | err
    · exact absurd hc (hmem i)
    · rw [outcome_bind_ok (tryConnect_context s _)]
      exact mendable_assign s (by simp)
    · rw [outcome_bind_ok (tryConnect_context s _)]
      exact ih (i + 1) _

/-- A `connect` without a context yet, whether it throws or not. -/
theorem mendable_connect (hs : s.redisCtx = none) {c : Connecting} (hc : Connecting.Losses c) :
    Mendable (outcome (connect maxRetries c) s).2 := by
  have hloop := mendable_connectLoop hc.memory hc.connections maxRetries 0 s
  rw [connect_eq hs, outcome_bind]
  rcases hout : outcome (connectLoop c.connections maxRetries 0) s with ⟨e | ⟨⟩, t⟩
  · rwa [hout] at hloop
  · rw [hout] at hloop
    have hkeep : Mendable (t.keepAlive c.keepAlive) := by
      rcases hk : c.keepAlive with _ | err
      · exact hloop
      · exact hloop.setErr fun e he => hc.keepAlive e (hk.trans he)
    exact hkeep

theorem mendable_reset (s : State) {c : Connecting} (hc : Connecting.Losses c) :
    Mendable (outcome (reset maxRetries c) s).2 := by
  obtain ⟨u, hdis, hnull⟩ : ∃ u, outcome disconnect s = (.ok (), u) ∧ u.redisCtx = none := by
    refine ⟨_, outcome_modify _ s, ?_⟩
    rcases hctx : s.redisCtx with _ | ctx
    · exact hctx
    · rfl
  rw [reset, outcome_bind_ok hdis]
  exact mendable_connect hnull hc

theorem mendable_reconnectLoop {results : ℕ → Option Err}
    (hres : ∀ j e, results j = some e → e.lost = true) (left : ℕ) : ∀ i,
    Maintains Mendable (reconnectLoop results left i) := by
  induction left with
  | zero =>
    intro i s h
    rw [reconnectLoop, outcome_bind_ok (redisReconnect_eq s _)]
    have hset := h.setErr (hres i)
    rcases hr : results i with _ | err
    · rwa [hr] at hset
    · rwa [hr] at hset
  | succ left ih =>
    intro i s h
    rw [reconnectLoop, outcome_bind_ok (redisReconnect_eq s _)]
    have hset := h.setErr (hres i)
    rcases hr : results i with _ | err
    · rwa [hr] at hset
    · rw [hr] at hset
      exact ih (i + 1) _ hset

theorem mendable_reconnect {results : ℕ → Option Err}
    (hres : ∀ j e, results j = some e → e.lost = true) :
    Maintains Mendable (reconnect maxRetries results) := by
  intro s h
  have hloop := mendable_reconnectLoop hres maxRetries 0 { s with connected := false } h
  rw [reconnect_eq h.1, outcome_bind]
  rcases hout : outcome (reconnectLoop results maxRetries 0) { s with connected := false }
    with ⟨e | ⟨⟩, t⟩
  · rwa [hout] at hloop
  · rw [hout] at hloop
    exact hloop

theorem mendable_redisCommand {answer : Except Err ρ}
    (hans : ∀ e, answer = .error e → e.lost = true) : Maintains Mendable (redisCommand answer) := by
  intro s h
  rcases he : s.err with _ | err
  · rcases answer with err | reply
    · rw [redisCommand_fails h.1 he]
      exact h.setErr fun e heq => hans e (by rw [Option.some.inj heq])
    · rw [redisCommand_replies h.1 he]
      exact h
  · rw [redisCommand_sticky h.1 he]
    exact h

theorem mendable_commandLoop {c : Commanding ρ} (hc : Commanding.Losses c) (left : ℕ) : ∀ i,
    Maintains Mendable (commandLoop maxRetries c left i) := by
  induction left with
  | zero =>
    intro i
    rw [commandLoop]
    refine (mendable_redisCommand (hc.answers i)).bind fun r => ?_
    cases r with
    | some reply => exact .pure reply
    | none => exact .get fun s h => h
  | succ left ih =>
    intro i
    rw [commandLoop]
    refine (mendable_redisCommand (hc.answers i)).bind fun r => ?_
    cases r with
    | some reply => exact .pure reply
    | none =>
      refine .get fun s h => ?_
      exact (Maintains.bind (.ite (mendable_reconnect (hc.reconnects i)) (.pure ()))
        fun _ => ih (i + 1)) s h

theorem mendable_commandImpl {first second : Commanding ρ} {c : Connecting}
    (hfirst : Commanding.Losses first) (hsecond : Commanding.Losses second)
    (hc : Connecting.Losses c) :
    Maintains Mendable (commandImpl maxRetries upperRetry first second c) := by
  intro s h
  have h' : Mendable (outcome (commandLoop maxRetries first maxRetries 0) s).2 :=
    mendable_commandLoop hfirst maxRetries 0 s h
  have hretry : Maintains Mendable (commandLoop maxRetries second maxRetries 0) :=
    mendable_commandLoop hsecond maxRetries 0
  rw [commandImpl, outcome_tryCatch, command_eq]
  rcases hout : outcome (commandLoop maxRetries first maxRetries 0) s with ⟨e | reply, t⟩
  · rw [hout] at h'
    dsimp only
    split_ifs
    · exact h'
    · rw [outcome_bind_ok (outcome_get t)]
      split_ifs
      · exact hretry t h'
      · have hreset : Mendable (outcome (reset maxRetries c) t).2 := mendable_reset t hc
        rw [outcome_bind]
        rcases hr : outcome (reset maxRetries c) t with ⟨e' | ⟨⟩, u⟩
        · rwa [hr] at hreset
        · rw [hr] at hreset
          exact hretry u hreset
  · rwa [hout] at h'

theorem Mendable.step (h : Mendable s) {a : Action ρ} (ha : a.Losses) :
    Mendable (step maxRetries upperRetry s a).2 := by
  cases a with
  | init c =>
    have hout : outcome (connect maxRetries c) s = (.error .contextNotNull, s) :=
      connect_refused h.1 c
    rw [Adapter.step, call, outcome_bind_error hout]
    exact h
  | reset c =>
    have hreset : Mendable (outcome (reset maxRetries c) s).2 := mendable_reset s ha
    rw [Adapter.step, call, outcome_bind]
    rcases hr : outcome (reset maxRetries c) s with ⟨e | ⟨⟩, t⟩
    · rwa [hr] at hreset
    · rwa [hr] at hreset
  | command first second c =>
    have hcommand : Mendable
        (outcome (commandImpl maxRetries upperRetry first second c) s).2 :=
      mendable_commandImpl ha.1 ha.2.1 ha.2.2 s h
    rcases hout : outcome (commandImpl maxRetries upperRetry first second c) s with ⟨r, t⟩
    rw [hout] at hcommand
    rw [step_command first second c hout]
    exact hcommand

/-- Once `init` has been called, with retries: as long as the errors are losses of the connection
and there is memory for a context, whatever calls there have been and however they have ended, the
next command to a server that is up gets its reply. -/
theorem adapter_survives (hpos : 0 < maxRetries) (upperRetry : Bool) (c₀ : Connecting)
    (as : List (Action ρ)) (hlosses : ∀ a ∈ Action.init c₀ :: as, a.Losses)
    {first second : Commanding ρ} {c : Connecting} (hup : Up first second c) :
    ∃ reply, (step maxRetries upperRetry
      (run (step maxRetries upperRetry) construct (.init c₀ :: as)).2
      (.command first second c)).1 = .ok (some reply) := by
  have hinit : Mendable (step maxRetries upperRetry construct (Action.init (ρ := ρ) c₀)).2 := by
    have hconnect : Mendable (outcome (connect maxRetries c₀) construct).2 :=
      mendable_connect rfl (hlosses _ List.mem_cons_self)
    rw [step, call, outcome_bind]
    rcases hr : outcome (connect maxRetries c₀) construct with ⟨e | ⟨⟩, t⟩
    · rwa [hr] at hconnect
    · rwa [hr] at hconnect
  have hrest : RunOk (step maxRetries upperRetry) (fun _ a => a.Losses)
      (step maxRetries upperRetry construct (Action.init (ρ := ρ) c₀)).2 as :=
    RunOk.of_inputs _ as fun a ha => hlosses a (List.mem_cons_of_mem _ ha)
  have hlast : Mendable (run (step maxRetries upperRetry) construct (.init c₀ :: as)).2 :=
    run_invariant (fun _ _ h ha => h.step ha) _ as hinit hrest
  have hwhole : ¬ Broken maxRetries upperRetry
      (run (step maxRetries upperRetry) construct (.init c₀ :: as)).2 := fun h =>
    h.1 fun e he => ⟨hlast.2 e he, hpos⟩
  obtain ⟨reply, hout⟩ := commandImpl_up hlast.1 hwhole hup
  rw [step_command first second c (Prod.ext hout rfl)]
  exact ⟨reply, rfl⟩

/-- The server is away for the first command, and comes back. -/
theorem adapter_survives_one :
    let open₁ : Connecting := ⟨fun _ => .context none, none⟩
    let away : Action ℕ := .command ⟨fun _ => .error .io, fun _ _ => some .io⟩
      ⟨fun _ => .error .io, fun _ _ => some .io⟩ open₁
    let back : Commanding ℕ := ⟨fun _ => .ok 5, fun _ _ => none⟩
    ∃ reply, (step 1 false (run (step 1 false) construct [.init open₁, away]).2
      (.command back back open₁)).1 = .ok (some reply) := by
  intro open₁ away back
  have hopen : Connecting.Losses open₁ := ⟨by simp [open₁], by simp [open₁], by simp [open₁]⟩
  have haway : Commanding.Losses (⟨fun _ => .error .io, fun _ _ => some .io⟩ : Commanding ℕ) :=
    ⟨fun _ e he => by cases he; rfl, fun _ _ e he => by cases he; rfl⟩
  have hup : Up back back open₁ :=
    ⟨⟨fun _ => rfl, fun _ => ⟨5, rfl⟩, fun _ _ => rfl⟩, fun _ => ⟨5, rfl⟩, fun _ _ => rfl, rfl⟩
  refine adapter_survives Nat.one_pos false open₁ [away] (fun a ha => ?_) hup
  rcases List.mem_cons.1 ha with rfl | ha
  · exact hopen
  · obtain rfl := List.mem_singleton.1 ha
    exact ⟨haway, haway, hopen⟩

end Adapter

end RedisBase

end XCache
