import XCache.RedisBase

/-!
# Who owns the contexts

`connect` assigns `redis_ctx` anew at each attempt. A context that comes with an error is not freed
before the next attempt overwrites its only pointer, and the last one is kept when `connect` throws,
so that the next `connect` is refused. So the contexts alive are `redis_ctx` and no other exactly if
no `connect` gets a context with an error at its first attempt (`run_owns_iff`).
-/

namespace XCache

namespace RedisBase

variable {maxRetries : ℕ} {s t : State}

/-- The contexts alive are the one `redis_ctx` points to, if any. -/
def Owned (m : Option ℕ × List ℕ) : Prop := m.2 = m.1.toList

/-- So it is now, and so it has been at every moment. -/
structure Inv (s : State) : Prop where
  now : Owned (s.redisCtx.map Context.id, s.live)
  ever : ∀ m ∈ s.moments, Owned m

/-- The first attempt of a `connect` gets no context with an error. -/
def Smooth (s : State) : Action → Prop
  | .connect c => s.redisCtx = none → ∀ err, c.connections 0 ≠ .context (some err)
  | _ => True

/-- At every moment up to the end of the call `redis_ctx` has been the context alive, and it is null
where `connect` throws after its attempts. -/
def Owns (maxRetries : ℕ) (s : State) (a : Action) : Prop :=
  (∀ m ∈ (step maxRetries s a).2.moments, Owned m)
    ∧ ∀ c, a = .connect c → s.redisCtx = none → ∀ e, (step maxRetries s a).1 = .error e →
      (step maxRetries s a).2.redisCtx = none

theorem inv_construct : Inv construct where
  now := rfl
  ever m hm := by
    obtain rfl := List.mem_singleton.1 hm
    rfl

/-! ## What a call changes -/

theorem Inv.noted (hnow : Owned (s.redisCtx.map Context.id, s.live))
    (hever : ∀ m ∈ s.moments, Owned m) : Inv s.noted where
  now := hnow
  ever m hm := by
    rcases List.mem_append.1 hm with hm | hm
    · exact hever m hm
    · obtain rfl := List.mem_singleton.1 hm
      exact hnow

/-- Errors and `connected` have no part in it. -/
theorem Inv.congr (hs : Inv s) (hctx : t.redisCtx.map Context.id = s.redisCtx.map Context.id)
    (hlive : t.live = s.live) (hmoments : t.moments = s.moments) : Inv t where
  now := by
    rw [hctx, hlive]
    exact hs.now
  ever := by
    rw [hmoments]
    exact hs.ever

theorem Inv.setErr (hs : Inv s) (err : Option Err) : Inv (s.setErr err) := by
  refine hs.congr ?_ rfl rfl
  show (s.redisCtx.map _).map Context.id = _
  rw [Option.map_map]
  rfl

theorem Inv.keepAlive (hs : Inv s) (result : Option Err) : Inv (s.keepAlive result) := by
  cases result with
  | none => exact hs
  | some err => exact hs.setErr (some err)

/-- An attempt, when there is no context. -/
theorem Inv.assign (hs : Inv s) (hctx : s.redisCtx = none) (c : Connection) : Inv (s.assign c) := by
  have hlive : s.live = [] := by
    have hnow := hs.now
    rwa [hctx] at hnow
  cases c with
  | null =>
    refine Inv.noted ?_ hs.ever
    rw [hlive]
    rfl
  | context err =>
    refine Inv.noted ?_ hs.ever
    rw [hlive]
    rfl

/-- An attempt, when there is a context: it stays alive, and no pointer leads to it. -/
theorem assign_leaks (hs : Inv s) {c : Context} (hctx : s.redisCtx = some c) (r : Connection) :
    ∃ m ∈ (s.assign r).moments, ¬ Owned m := by
  have hlive : s.live = [c.id] := by
    have hnow := hs.now
    rwa [hctx] at hnow
  cases r with
  | null =>
    refine ⟨(none, s.live), List.mem_append_right _ List.mem_cons_self, ?_⟩
    rw [hlive]
    simp [Owned]
  | context err =>
    refine ⟨(some s.next, s.live ++ [s.next]), List.mem_append_right _ List.mem_cons_self, ?_⟩
    rw [hlive]
    simp [Owned]

theorem assign_moments (s : State) (c : Connection) : s.moments ⊆ (s.assign c).moments := by
  cases c <;> exact List.subset_append_left _ _

theorem tryConnect_null (s : State) :
    outcome (tryConnect .null) s = (.error .cantAllocate, s.assign .null) := rfl

theorem tryConnect_context (s : State) (err : Option Err) :
    outcome (tryConnect (.context err)) s = (.ok err, s.assign (.context err)) := rfl

/-- What has been, has been: after the first attempt the loop only adds to it. -/
theorem connectLoop_moments (connections : ℕ → Connection) (left : ℕ) : ∀ (i : ℕ) (s : State),
    (s.assign (connections i)).moments
      ⊆ (outcome (connectLoop connections left i) s).2.moments := by
  induction left with
  | zero =>
    intro i s
    rw [connectLoop]
    rcases hc : connections i with _ | _ | err
    · rw [outcome_bind_error (tryConnect_null s)]
      exact List.Subset.refl _
    · rw [outcome_bind_ok (tryConnect_context s _)]
      exact List.Subset.refl _
    · rw [outcome_bind_ok (tryConnect_context s _)]
      exact List.Subset.refl _
  | succ left ih =>
    intro i s
    rw [connectLoop]
    rcases hc : connections i with _ | _ | err
    · rw [outcome_bind_error (tryConnect_null s)]
      exact List.Subset.refl _
    · rw [outcome_bind_ok (tryConnect_context s _)]
      exact List.Subset.refl _
    · rw [outcome_bind_ok (tryConnect_context s _)]
      exact List.Subset.trans (assign_moments _ _) (ih (i + 1) _)

theorem keepAlive_moments (s : State) (result : Option Err) :
    (s.keepAlive result).moments = s.moments := by
  cases result <;> rfl

/-! ## `connect` -/

theorem connect_refused (hctx : s.redisCtx ≠ none) (c : Connecting) :
    outcome (connect maxRetries c) s = (.error .contextNotNull, s) := by
  rw [connect, outcome_bind_ok (outcome_get s), outcome_bind_throws hctx]

/-- `connect` with no context yet. -/
theorem connect_eq (hctx : s.redisCtx = none) (c : Connecting) :
    outcome (connect maxRetries c) s = outcome (do
      connectLoop c.connections maxRetries 0
      modify fun s => s.keepAlive c.keepAlive
      modify fun s => { s with connected := true }) s := by
  rw [connect, outcome_bind_ok (outcome_get s), outcome_bind_throwIf (not_not.2 hctx)]

theorem connectLoop_null {connections : ℕ → Connection} {i : ℕ} (hc : connections i = .null)
    (left : ℕ) (s : State) :
    outcome (connectLoop connections left i) s = (.error .cantAllocate, s.assign .null) := by
  cases left <;>
  · rw [connectLoop, hc]
    exact outcome_bind_error (tryConnect_null s) _

theorem connectLoop_good {connections : ℕ → Connection} {i : ℕ}
    (hc : connections i = .context none) (left : ℕ) (s : State) :
    outcome (connectLoop connections left i) s = (.ok (), s.assign (.context none)) := by
  cases left <;>
  · rw [connectLoop, hc]
    exact outcome_bind_ok (tryConnect_context s none) _

theorem connect_null (hctx : s.redisCtx = none) {c : Connecting}
    (hc : c.connections 0 = .null) :
    outcome (connect maxRetries c) s = (.error .cantAllocate, s.assign .null) := by
  rw [connect_eq hctx]
  exact outcome_bind_error (connectLoop_null hc maxRetries s) _

theorem connect_good (hctx : s.redisCtx = none) {c : Connecting}
    (hc : c.connections 0 = .context none) :
    outcome (connect maxRetries c) s
      = (.ok (), { (s.assign (.context none)).keepAlive c.keepAlive with connected := true }) := by
  rw [connect_eq hctx, outcome_bind_ok (connectLoop_good hc maxRetries s)]
  rfl

/-- A `connect` that gets through its loop has been there by its end. -/
theorem connect_moments (hctx : s.redisCtx = none) (c : Connecting) :
    (outcome (connectLoop c.connections maxRetries 0) s).2.moments
      = (outcome (connect maxRetries c) s).2.moments := by
  rw [connect_eq hctx]
  rcases hloop : outcome (connectLoop c.connections maxRetries 0) s with ⟨_ | _, t⟩
  · rw [outcome_bind_error hloop]
  · rw [outcome_bind_ok hloop]
    exact (keepAlive_moments t c.keepAlive).symm

/-- A first attempt that gets a context with an error goes wrong: the context is kept, or leaks. -/
theorem connect_errs (hs : Inv s) (hctx : s.redisCtx = none) {c : Connecting} {err : Err}
    (hc : c.connections 0 = .context (some err)) : ¬ Owns maxRetries s (.connect c) := by
  intro h
  have hfirst : (s.assign (.context (some err))).redisCtx = some ⟨s.next, some err⟩ := rfl
  rcases maxRetries with _ | left
  · have hout : outcome (connect 0 c) s
        = (.error (.connecting err), s.assign (.context (some err))) := by
      rw [connect_eq hctx]
      refine outcome_bind_error ?_ _
      rw [connectLoop, hc]
      exact outcome_bind_ok (tryConnect_context s _) _
    have hnull := h.2 c rfl hctx (.connecting err) (by rw [step, call, hout])
    rw [step, call, hout, hfirst] at hnull
    simp at hnull
  · -- the second attempt overwrites the context of the first
    obtain ⟨m, hm, hnot⟩ := assign_leaks (hs.assign hctx (.context (some err))) hfirst
      (c.connections 1)
    refine hnot (h.1 m ?_)
    show m ∈ (outcome (connect (left + 1) c) s).2.moments
    rw [← connect_moments hctx, connectLoop, hc, outcome_bind_ok (tryConnect_context s _)]
    exact connectLoop_moments c.connections left 1 _ hm

theorem connect_keeps (maxRetries : ℕ) (hs : Inv s) {c : Connecting} (hc : Smooth s (.connect c)) :
    Inv (step maxRetries s (.connect c)).2
      ∧ (s.redisCtx = none → ∀ e, (step maxRetries s (.connect c)).1 = .error e →
        (step maxRetries s (.connect c)).2.redisCtx = none) := by
  by_cases hctx : s.redisCtx = none
  · rcases hfirst : c.connections 0 with _ | ⟨_ | err⟩
    · rw [step, call, connect_null hctx hfirst]
      exact ⟨hs.assign hctx .null, fun _ _ _ => rfl⟩
    · rw [step, call, connect_good hctx hfirst]
      refine ⟨((hs.assign hctx (.context none)).keepAlive c.keepAlive).congr rfl rfl rfl, ?_⟩
      intro _ e he
      simp at he
    · exact absurd hfirst (hc hctx err)
  · rw [step, call, connect_refused hctx]
    exact ⟨hs, fun h => absurd h hctx⟩

/-! ## The other calls -/

theorem inv_disconnect (hs : Inv s) : Inv (outcome disconnect s).2 := by
  rw [disconnect, outcome_modify]
  rcases hctx : s.redisCtx with _ | c
  · exact hs
  · have hlive : s.live = [c.id] := by
      have hnow := hs.now
      rwa [hctx] at hnow
    refine Inv.noted ?_ hs.ever
    simp [Owned, hlive]

theorem redisReconnect_eq (s : State) (result : Option Err) :
    outcome (redisReconnect result) s = (.ok result, s.setErr result) := rfl

theorem inv_reconnectLoop (results : ℕ → Option Err) (left : ℕ) : ∀ (i : ℕ) (s : State), Inv s →
    Inv (outcome (reconnectLoop results left i) s).2 := by
  induction left with
  | zero =>
    intro i s hs
    rw [reconnectLoop, outcome_bind_ok (redisReconnect_eq s _)]
    rcases results i with _ | err
    · exact hs.setErr _
    · exact hs.setErr _
  | succ left ih =>
    intro i s hs
    rw [reconnectLoop, outcome_bind_ok (redisReconnect_eq s _)]
    rcases results i with _ | err
    · exact hs.setErr _
    · exact ih _ _ (hs.setErr _)

theorem inv_reconnect (hs : Inv s) (results : ℕ → Option Err) :
    Inv (outcome (reconnect maxRetries results) s).2 := by
  have hoff : Inv { s with connected := false } := hs.congr rfl rfl rfl
  rw [reconnect, outcome_bind_ok (outcome_modify _ s), outcome_bind_ok (outcome_get _),
    outcome_bind, outcome_throwIf]
  split
  · rename_i heq
    split at heq
    · simp at heq
    · obtain ⟨-, rfl⟩ := Prod.mk.inj heq
      have hloop := inv_reconnectLoop results maxRetries 0 _ hoff
      rw [outcome_bind]
      rcases hr : outcome (reconnectLoop results maxRetries 0) { s with connected := false }
        with ⟨_ | _, t⟩
      · rwa [hr] at hloop
      · rw [hr] at hloop
        exact hloop.congr rfl rfl rfl
  · rename_i heq
    split at heq
    · obtain ⟨-, rfl⟩ := Prod.mk.inj heq
      exact hoff
    · simp at heq

theorem step_owns (hs : Inv s) (a : Action) (ha : Smooth s a) :
    Inv (step maxRetries s a).2 ∧ Owns maxRetries s a := by
  suffices H : Inv (step maxRetries s a).2 ∧ ∀ c, a = .connect c → s.redisCtx = none →
      ∀ e, (step maxRetries s a).1 = .error e → (step maxRetries s a).2.redisCtx = none from
    ⟨H.1, H.1.ever, H.2⟩
  cases a with
  | connect c =>
    obtain ⟨hinv, hnull⟩ := connect_keeps maxRetries hs ha
    exact ⟨hinv, fun _ _ => hnull⟩
  | disconnect => exact ⟨inv_disconnect hs, by simp⟩
  | reconnect results => exact ⟨inv_reconnect hs results, by simp⟩
  | destroy => exact ⟨inv_disconnect hs, by simp⟩

theorem not_owns (hs : Inv s) {a : Action} (ha : ¬ Smooth s a) : ¬ Owns maxRetries s a := by
  cases a with
  | connect c =>
    simp only [Smooth, Classical.not_imp, not_forall, not_not] at ha
    obtain ⟨hctx, err, hc⟩ := ha
    exact connect_errs hs hctx hc
  | _ => exact absurd trivial ha

/-- In every run, whatever the connections turn out to be: at every moment the contexts alive are
`redis_ctx` and no other, and a `connect` whose attempts fail leaves it null, exactly if no
`connect` gets a context with an error at its first attempt. -/
theorem run_owns_iff (maxRetries : ℕ) (as : List Action) :
    RunOk (step maxRetries) (Owns maxRetries) construct as
      ↔ RunOk (step maxRetries) Smooth construct as :=
  runOk_iff (I := Inv) (fun _ a hs _ ha => step_owns hs a ha)
    (fun _ _ hs _ ha => not_owns hs ha) _ as inv_construct (RunOk.top _ as)

/-- The server is down for one attempt, and then up: the first context is alive, and lost. With no
retries, `connect` throws, and the next one is refused. -/
theorem refused_leaks :
    ¬ RunOk (step 1) (Owns 1) construct
        [.connect ⟨fun i => .context (if i = 0 then some .io else none), none⟩]
      ∧ (step 0 (step 0 construct (.connect ⟨fun _ => .context (some .io), none⟩)).2
          (.connect ⟨fun _ => .context none, none⟩)).1 = .error .contextNotNull := by
  refine ⟨fun h => ?_, by decide⟩
  have hmoment := h.1.1 (some 1, [0, 1]) (by decide)
  simp [Owned] at hmoment

end RedisBase

end XCache
