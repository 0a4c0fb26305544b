import XCache.RedisSubscriber

/-!
# Which contexts the subscriber hands to hiredis

Whatever is called and called back, `redis_ctx` names no context that `RedisSub::free` has freed: if
it names a freed one, hiredis has called back that its connection could not be made or is closed
(`Owned`). Neither callback clears `redis_ctx`, so that context is what `subscribe` hands over then,
and `uninit` while the event loop runs; nothing else hands over a freed context.
-/

namespace XCache

namespace SubManager

variable {s : State} {f : Function}

/-- hiredis has called back that the connection of the context in `redis_ctx` could not be made or
is closed. -/
def State.severed (s : State) : Bool :=
  match s.redisCtx with
  | some c => s.ended.contains c
  | none => false

/-- The calls that come to use `redis_ctx`: `subscribe`, and `uninit` while `connect` runs. -/
def Uses (s : State) : Action → Bool
  | .subscribe _ => ! s.waiting && s.redis
  | .uninit => ! s.waiting && s.redis && s.running
  | .init _ | .connect _ | .connectEnd | .wake => false
  | .connectCallback _ _ | .disconnectCallback _ _ => false

/-- No such call comes after hiredis has called back that the connection has failed or is closed,
before `redis_ctx` is set again. -/
def Orderly (s : State) (a : Action) : Prop := Uses s a → s.severed = false

/-- Where a call comes to use `redis_ctx`, it is `NULL` or names a live context. -/
def NullOrLive (s : State) (a : Action) : Prop := Uses s a → ∀ c, s.redisCtx = some c → s.live c

/-- The contexts that `redis_ctx` and hiredis's calls back are about. -/
structure Owned (s : State) : Prop where
  current : ∀ c, s.redisCtx = some c → c < s.created ∧ (c ∈ s.freed → c ∈ s.ended)
  freed : ∀ c ∈ s.freed, c < s.created
  ended : ∀ c ∈ s.ended, c ∈ s.freed

theorem construct_owned : Owned construct where
  current c h := by simp [construct] at h
  freed := by simp [construct]
  ended := by simp [construct]

namespace Owned

/-- `redis_ctx` is `NULL` or names a live context, unless its connection has failed or is closed. -/
theorem severed_eq_false (h : Owned s) :
    s.severed = false ↔ ∀ c, s.redisCtx = some c → s.live c := by
  unfold State.severed
  rcases hctx : s.redisCtx with _ | c
  · simp
  · obtain ⟨hlt, hfreed⟩ := h.current c hctx
    have hiff : c ∈ s.freed ↔ c ∈ s.ended := ⟨hfreed, h.ended c⟩
    simp [State.live, hlt, hiff]

theorem hand_live (h : Owned s) : (∀ x ∈ s.hand f, x.live) ↔ s.severed = false := by
  rw [h.severed_eq_false]
  unfold State.hand
  rcases s.redisCtx with _ | c <;> simp

theorem cleared (h : Owned s) {redis running dispatching waiting : Bool} {status : ℤ} :
    Owned { s with
      redisCtx := none, redis := redis, status := status, running := running
      dispatching := dispatching, waiting := waiting } where
  current c hc := by simp at hc
  freed := h.freed
  ended := h.ended

theorem kept (h : Owned s) {redis running dispatching waiting : Bool} {status : ℤ} :
    Owned { s with
      redis := redis, status := status, running := running
      dispatching := dispatching, waiting := waiting } :=
  ⟨h.current, h.freed, h.ended⟩

theorem fresh (h : Owned s) :
    Owned { s with redisCtx := some s.created, created := s.created + 1 } where
  current c hc := by
    obtain rfl : s.created = c := by simpa using hc
    exact ⟨Nat.lt_succ_self _, fun hf => absurd (h.freed _ hf) (lt_irrefl _)⟩
  freed c hc := (h.freed c hc).trans (Nat.lt_succ_self _)
  ended := h.ended

theorem free (h : Owned s) : Owned (free s).2 where
  current c hc := by simp [SubManager.free] at hc
  freed c hc := by
    rcases List.mem_append.1 hc with hc | hc
    · exact h.freed c hc
    · exact (h.current c (by simpa using hc)).1
  ended c hc := List.mem_append_left _ (h.ended c hc)

theorem redisConnect (h : Owned s) (o : Opening) : Owned (redisConnect s o).2.2 := by
  cases o with
  | null => exact h.cleared
  | context err attachErr =>
    unfold SubManager.redisConnect
    by_cases herr : err ≠ 0
    · simp only [if_pos herr]
      exact h.fresh.free
    · simp only [if_neg herr]
      rcases attachErr with _ | e
      · exact h.fresh
      · exact h.fresh.free

theorem redisConnect_live (h : Owned s) (o : Opening) :
    ∀ x ∈ (SubManager.redisConnect s o).2.1, x.live := by
  have hfresh : ∀ f, ∀ x ∈ State.hand { s with
      redisCtx := some s.created, created := s.created + 1 } f, x.live := by
    intro f
    refine h.fresh.hand_live.2 ?_
    have : s.created ∉ s.ended := fun hc => absurd (h.freed _ (h.ended _ hc)) (lt_irrefl _)
    simpa [State.severed] using this
  cases o with
  | null => simp [SubManager.redisConnect]
  | context err attachErr =>
    unfold SubManager.redisConnect
    by_cases herr : err ≠ 0
    · simp only [if_pos herr]
      exact hfresh .redisAsyncFree
    · simp only [if_neg herr]
      rcases attachErr with _ | e
      · simp
      · exact hfresh .redisAsyncFree

/-- hiredis frees a context after it has called back. -/
theorem callback (h : Owned s) {c : ℕ} (hc : s.live c) {status : ℤ} :
    Owned { s with status := status, freed := s.freed ++ [c], ended := s.ended ++ [c] } where
  current d hd := by
    obtain ⟨hlt, hfreed⟩ := h.current d hd
    refine ⟨hlt, fun hf => ?_⟩
    rcases List.mem_append.1 hf with hf | hf
    · exact List.mem_append_left _ (hfreed hf)
    · exact List.mem_append_right _ hf
  freed d hd := by
    rcases List.mem_append.1 hd with hd | hd
    · exact h.freed d hd
    · obtain rfl := List.mem_singleton.1 hd
      simp only [State.live, Bool.and_eq_true, decide_eq_true_eq] at hc
      exact hc.1
  ended d hd := by
    rcases List.mem_append.1 hd with hd | hd
    · exact List.mem_append_left _ (h.ended d hd)
    · exact List.mem_append_right _ hd

theorem connect (h : Owned s) (o : Opening) : Owned (connect s o).2 := by
  have hrunning : Owned { s with running := true } := h.kept
  unfold SubManager.connect
  split
  · exact h
  · simp only
    split
    · exact (hrunning.redisConnect o).kept
    · exact (hrunning.redisConnect o).kept

theorem connect_live (h : Owned s) (o : Opening) :
    ∀ x ∈ (SubManager.connect s o).1.handed, x.live := by
  have hrunning : Owned { s with running := true } := h.kept
  unfold SubManager.connect
  split
  · simp
  · simp only
    split
    · exact hrunning.redisConnect_live o
    · exact hrunning.redisConnect_live o

theorem uninit (h : Owned s) : Owned (uninit s).2 := by
  unfold SubManager.uninit
  split
  · exact h
  · split
    · exact h.kept
    · exact h.cleared

theorem step (h : Owned s) (a : Action) : Owned (step s a).2 := by
  cases a with
  | init base =>
    simp only [SubManager.step, SubManager.init, quiet]
    split
    · exact h
    · split <;> exact h.cleared
  | connect o =>
    simp only [SubManager.step, quiet]
    split
    · exact h
    · exact h.connect o
  | connectEnd =>
    simp only [SubManager.step, quiet]
    split
    · exact h.kept
    · exact h
  | subscribe res =>
    simp only [SubManager.step, SubManager.subscribe, quiet]
    split
    · exact h
    · split <;> exact h
  | uninit =>
    simp only [SubManager.step, quiet]
    split
    · exact h
    · exact h.uninit
  | wake =>
    simp only [SubManager.step, quiet]
    split
    · exact h.cleared
    · exact h
  | connectCallback c ok =>
    simp only [SubManager.step, quiet, connectCallback]
    split
    · split
      · exact h.kept
      · exact h.callback (by assumption)
    · exact h
  | disconnectCallback c ok =>
    simp only [SubManager.step, quiet, disconnectCallback]
    split
    · exact h.callback (by assumption)
    · exact h

theorem subscribe_live (h : Owned s) (res : ℤ) :
    (∀ x ∈ (redisSubscribe s res).1, x.live) ↔ s.severed = false := by
  rw [← h.hand_live (f := .redisAsyncCommand)]
  unfold redisSubscribe State.hand
  rcases s.redisCtx with _ | c <;> simp

/-- The steps that hand over live contexts only. -/
theorem step_live (h : Owned s) (a : Action) :
    (∀ x ∈ (SubManager.step s a).1.handed, x.live) ↔ Orderly s a := by
  cases a with
  | init base => simp only [SubManager.step, Orderly, Uses]; split <;> simp [quiet]
  | connect o =>
    simp only [SubManager.step, Orderly, Uses, Bool.false_eq_true, false_implies, iff_true]
    split
    · simp [quiet]
    · exact h.connect_live o
  | connectEnd => simp only [SubManager.step, Orderly, Uses]; split <;> simp [quiet, connectEnd]
  | subscribe res =>
    simp only [SubManager.step, SubManager.subscribe, Orderly, Uses]
    by_cases hwaiting : s.waiting = true
    · simp [hwaiting, quiet]
    · by_cases hredis : s.redis = true
      · simp only [hwaiting, hredis]
        simpa using h.subscribe_live res
      · simp [hwaiting, hredis]
  | uninit =>
    simp only [SubManager.step, SubManager.uninit, Orderly, Uses]
    by_cases hwaiting : s.waiting = true
    · simp [hwaiting, quiet]
    · by_cases hredis : s.redis = true
      · by_cases hrunning : s.running = true
        · simp only [hwaiting, hredis, hrunning]
          simpa [redisDisconnect] using h.hand_live
        · simp [hwaiting, hredis, hrunning]
      · simp [hwaiting, hredis]
  | wake => simp only [SubManager.step, Orderly, Uses]; split <;> simp [quiet]
  | connectCallback c ok => simp [SubManager.step, Orderly, Uses, quiet]
  | disconnectCallback c ok => simp [SubManager.step, Orderly, Uses, quiet]

theorem nullOrLive (h : Owned s) {a : Action} (ha : Orderly s a) : NullOrLive s a :=
  fun huses => h.severed_eq_false.1 (ha huses)

end Owned

/-- In a run hiredis is handed live contexts only, and `redis_ctx` is `NULL` or names a live context
wherever a call comes to use it, if and only if none of these calls comes between hiredis's call
back that the connection could not be made or is closed and the next call that sets `redis_ctx`. -/
theorem handed_live_iff (as : List Action) :
    ((∀ o ∈ (run step construct as).1, ∀ x ∈ o.handed, x.live)
        ∧ RunOk step NullOrLive construct as)
      ↔ RunOk step Orderly construct as := by
  constructor
  · intro h
    exact runOk_of_outputs (I := Owned) (fun _ a h _ _ => h.step a)
      (fun _ a h _ ho => (h.step_live a).1 ho) construct as construct_owned (RunOk.top _ as) h.1
  · intro h
    have hlive : ∀ o ∈ (run step construct as).1, ∀ x ∈ o.handed, x.live :=
      run_outputs (I := Owned) (fun _ a h _ => h.step a)
        (fun _ a h ho => (h.step_live a).2 ho) construct as construct_owned h
    exact ⟨hlive, runOk_of_outputs (I := Owned) (fun _ a h _ _ => h.step a)
      (fun _ a h _ ho => h.nullOrLive ((h.step_live a).1 ho)) construct as construct_owned
      (RunOk.top _ as) hlive⟩

/-- The server closes a connection that has been made, and `subscribe` hands over its context. -/
theorem subscribe_freed :
    ¬ ∀ as : List Action, ∀ o ∈ (run step construct as).1, ∀ x ∈ o.handed, x.live := by
  intro h
  have := h [.init true, .connect (.context 0 none), .connectCallback 0 true,
    .disconnectCallback 0 false, .subscribe 0]
  revert this
  decide

end SubManager

end XCache
