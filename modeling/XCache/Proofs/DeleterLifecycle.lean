import XCache.DeleterLifecycle

/-!
# When the deleter's calls are safe

`work_guard` is null until `run` has been called, and `stop`, `force_stop` and the destructor use it
all the same. `run` asks `running_threads` whether threads of an earlier `run` are left, but a
thread that has been created and not scheduled is not counted yet. While no `stop` is in progress
no thread returns from `io.run()` (`Live`), so as soon as one thread has been scheduled the question
is answered right.
-/

namespace XCache

namespace AsyncDeleter

namespace Lifecycle

variable {threads : ℕ} {s : State} {i : ℕ} {t : Thread}

/-- Threads of an earlier `run` have not been joined. -/
def State.Unjoined (s : State) : Prop := ∃ t ∈ s.threadPool, t.joinable = true

theorem unjoined_iff : s.Unjoined ↔ (s.threadPool.any fun t => t.joinable) = true := by
  simp [State.Unjoined]

/-- The step uses no null pointer and destroys no joinable thread; a `run` throws where threads have
not been joined. -/
def Safe (threads : ℕ) (s : State) (a : Action) : Prop :=
  (step threads s a).1 ≠ .dereferenced ∧ (step threads s a).1 ≠ .terminated
    ∧ (a = .run → s.call = .none → s.Unjoined → (step threads s a).1 = .threw)

/-- `run` is called when the threads of the last one have been joined, or one of them has been
scheduled; the other calls that use the guard come after a `run`. -/
def Ready (s : State) : Action → Prop
  | .run => s.call = .none → s.Unjoined → ∃ t ∈ s.threadPool, t.stage ≠ .created
  | .stop | .forceStop | .destroy => s.call = .none → s.runs ≠ 0
  | _ => True

/-- The threads are in `io.run()`, or on their way there, to stay. -/
structure Live (s : State) : Prop where
  running : s.core.ioStopped = false
  guarded : s.core.guarded = true
  inside : ∀ p ∈ s.core.workers, p ≠ .exited
  unfinished : ∀ t ∈ s.threadPool, t.stage ≠ .finished

structure Inv (threads : ℕ) (s : State) : Prop where
  alive : s.call ≠ .crashed
  fresh : s.runs = 0 →
    s.call = .none ∧ s.workGuard = false ∧ s.threadPool = [] ∧ s.core.ioStopped = false
  guard : s.runs ≠ 0 → s.call ≠ .destroyed → s.workGuard = true
  length : s.runs ≠ 0 → s.threadPool.length = threads
  counted : s.runningThreads = s.threadPool.countP fun t => t.stage = .running
  live : s.call = .none → s.Unjoined → Live s

theorem inv_construct (threads : ℕ) : Inv threads construct where
  alive := by simp [construct]
  fresh _ := ⟨rfl, rfl, rfl, rfl⟩
  guard h := absurd rfl h
  length h := absurd rfl h
  counted := rfl
  live _ h := by
    obtain ⟨t, ht, -⟩ := h
    simp [construct] at ht

/-! ## The threads -/

/-- A thread leaves `io.run()` only when the context is stopped, and stops it itself never. -/
theorem work_frame (s : AsyncDeleter.State) (i k : ℕ) (r : Removal) :
    (s.work i k r).ioStopped = s.ioStopped ∧ (s.work i k r).guarded = s.guarded
      ∧ (s.ioStopped = false → (∀ p ∈ s.workers, p ≠ .exited) →
        ∀ p ∈ (s.work i k r).workers, p ≠ .exited) := by
  have hmove : ∀ q : Phase, q ≠ .exited → (∀ p ∈ s.workers, p ≠ .exited) →
      ∀ p ∈ s.workers.set i q, p ≠ .exited := by
    intro q hq hin p hp
    rcases List.mem_or_eq_of_mem_set hp with hp | rfl
    · exact hin p hp
    · exact hq
  unfold AsyncDeleter.State.work
  split
  · split
    · exact ⟨rfl, rfl, fun hrun => by simp_all⟩
    · unfold AsyncDeleter.State.take
      split
      · exact ⟨rfl, rfl, fun _ => hmove _ (by simp)⟩
      · exact ⟨rfl, rfl, fun _ hin => hin⟩
  · exact ⟨rfl, rfl, fun _ => hmove _ (by simp)⟩
  · refine ⟨rfl, rfl, fun _ => hmove _ ?_⟩
    split <;> simp
  · unfold AsyncDeleter.State.lock
    split
    · exact ⟨rfl, rfl, fun _ => hmove _ (by simp)⟩
    · exact ⟨rfl, rfl, fun _ hin => hin⟩
  · exact ⟨rfl, rfl, fun _ => hmove _ (by simp)⟩
  · exact ⟨rfl, rfl, fun _ => hmove _ (by simp)⟩
  · exact ⟨rfl, rfl, fun _ hin => hin⟩
  · exact ⟨rfl, rfl, fun _ hin => hin⟩

/-- A step of the context that neither stops it nor lets a thread out. -/
theorem Inv.core (hs : Inv threads s) {core : AsyncDeleter.State}
    (hrun : core.ioStopped = s.core.ioStopped) (hguard : core.guarded = s.core.guarded)
    (hin : s.core.ioStopped = false → (∀ p ∈ s.core.workers, p ≠ .exited) →
      ∀ p ∈ core.workers, p ≠ .exited) : Inv threads { s with core := core } where
  alive := hs.alive
  fresh h := by
    obtain ⟨h1, h2, h3, h4⟩ := hs.fresh h
    exact ⟨h1, h2, h3, hrun.trans h4⟩
  guard := hs.guard
  length := hs.length
  counted := hs.counted
  live hc hj := by
    obtain ⟨h1, h2, h3, h4⟩ := hs.live hc hj
    exact ⟨hrun.trans h1, hguard.trans h2, hin h1 h3, h4⟩

/-- A thread that moves on is as joinable as it was. -/
theorem unjoined_set {l : List Thread} {st : Stage} (h : l[i]? = some t)
    (hj : ∃ u ∈ l.set i ⟨st, t.joinable⟩, u.joinable = true) : ∃ u ∈ l, u.joinable = true := by
  obtain ⟨u, hu, hj⟩ := hj
  rcases List.mem_or_eq_of_mem_set hu with hu | rfl
  · exact ⟨u, hu, hj⟩
  · exact ⟨t, List.mem_of_getElem? h, hj⟩

/-- A thread moves on to its next stage. -/
theorem Inv.moved (hs : Inv threads s) (hi : s.threadPool[i]? = some t) {st : Stage} {n : ℕ}
    (hn : n = (s.threadPool.set i ⟨st, t.joinable⟩).countP fun t => t.stage = .running)
    (hst : Live s → st ≠ .finished) :
    Inv threads { s with
      threadPool := s.threadPool.set i ⟨st, t.joinable⟩
      runningThreads := n } where
  alive := hs.alive
  fresh h := by simp [(hs.fresh h).2.2.1] at hi
  guard := hs.guard
  length h := (List.length_set ..).trans (hs.length h)
  counted := hn
  live hc hj := by
    have hlive := hs.live hc (unjoined_set hi hj)
    refine ⟨hlive.running, hlive.guarded, hlive.inside, fun u hu => ?_⟩
    rcases List.mem_or_eq_of_mem_set hu with hu | rfl
    · exact hlive.unfinished u hu
    · exact hst hlive

theorem inv_begin (hs : Inv threads s) (i : ℕ) : Inv threads (s.begin i) := by
  unfold State.begin
  split
  · rename_i joinable hi
    have hcount := countP_move (q := (⟨.running, joinable⟩ : Thread))
      (P := fun t => t.stage = .running) hi
    simp only [reduceCtorEq, decide_false, Bool.false_eq_true, if_false, decide_true, if_true,
      add_zero] at hcount
    refine hs.moved hi ?_ fun _ => by simp
    rw [hcount, hs.counted]
  · exact hs

theorem inv_work (hs : Inv threads s) (i k : ℕ) (r : Removal) : Inv threads (s.work i k r) := by
  unfold State.work
  split
  · obtain ⟨h1, h2, h3⟩ := work_frame s.core i k r
    exact hs.core h1 h2 h3
  · exact hs

/-- A thread counts itself off only when its pool has been told to stop. -/
theorem inv_finish (hs : Inv threads s) (i : ℕ) : Inv threads (s.finish i) := by
  unfold State.finish
  split
  · rename_i joinable hi hexit
    have hcount := countP_move (q := (⟨.finished, joinable⟩ : Thread))
      (P := fun t => t.stage = .running) hi
    simp only [reduceCtorEq, decide_false, Bool.false_eq_true, if_false, decide_true, if_true,
      add_zero] at hcount
    refine hs.moved hi ?_ fun hlive => ?_
    · have hcounted := hs.counted
      show s.runningThreads - 1 = (s.threadPool.set i ⟨.finished, joinable⟩).countP _
      omega
    · exact absurd rfl (hlive.inside _ (List.mem_of_getElem? hexit))
  · exact hs

theorem inv_runOut (hs : Inv threads s) :
    Inv threads (if s.workGuard then { s with core := s.core.runOut } else s) := by
  split
  · unfold AsyncDeleter.State.runOut
    split
    · rename_i hguard hout
      refine ⟨hs.alive, fun h => ?_, hs.guard, hs.length, hs.counted, fun hc hj => ?_⟩
      · simp [(hs.fresh h).2.1] at hguard
      · -- the guard keeps the context from running out of work
        simp [(hs.live hc hj).guarded] at hout
    · exact hs
  · exact hs

/-! ## The calls -/

theorem inv_run (hs : Inv threads s) (h : (s.run threads).1 ≠ .terminated) :
    Inv threads (s.run threads).2 := by
  unfold State.run at h ⊢
  split at h
  · rw [if_pos ‹_›]
    exact hs
  · rename_i hzero
    rw [if_neg hzero]
    split at h
    · exact absurd rfl h
    · rename_i hjoined
      rw [if_neg hjoined]
      refine ⟨hs.alive, fun hr => absurd hr (Nat.succ_ne_zero _), fun _ _ => rfl,
        fun _ => List.length_replicate, ?_, fun _ hj => ⟨?_, rfl, fun p hp => ?_, fun t ht => ?_⟩⟩
      · have hnone : (List.replicate threads (⟨.created, true⟩ : Thread)).countP
            (fun t => t.stage = .running) = 0 := by
          simp [List.countP_replicate]
        rw [hnone]
        simpa using hzero
      · obtain ⟨t, ht, -⟩ := hj
        have hpos : threads ≠ 0 := by
          rintro rfl
          simp at ht
        show (if s.threadPool.length ≠ 0 then false else s.core.ioStopped) = false
        by_cases hruns : s.runs = 0
        · rw [(hs.fresh hruns).2.2.2, ite_self]
        · rw [if_pos (by rw [hs.length hruns]; exact hpos)]
      · rw [List.eq_of_mem_replicate hp]
        simp
      · rw [List.eq_of_mem_replicate ht]
        simp

/-- A call that uses the guard, after a `run`. -/
theorem resetGuard_eq (hs : Inv threads s) (hc : s.call = .none) (hr : s.runs ≠ 0) (call : Call) :
    s.resetGuard call
      = (.none, { s with core := { s.core with guarded := false }, call := call }) := by
  rw [State.resetGuard, if_pos (hs.guard hr (by simp [hc]))]

/-- A call is in progress. -/
theorem inv_busy (hs : Inv threads s) (hr : s.runs ≠ 0) (core : AsyncDeleter.State) {call : Call}
    (hnone : call ≠ .none) (hcrash : call ≠ .crashed) (hc : s.call ≠ .destroyed) :
    Inv threads { s with core := core, call := call } where
  alive := hcrash
  fresh h := absurd h hr
  guard h _ := hs.guard h hc
  length := hs.length
  counted := hs.counted
  live h := absurd h hnone

/-- The threads are joined. -/
theorem inv_joined (hs : Inv threads s) (hr : s.runs ≠ 0) {core : AsyncDeleter.State} {guard : Bool}
    {call : Call} (hcrash : call ≠ .crashed) (hg : call ≠ .destroyed → guard = true) :
    Inv threads { s.joined call with core := core, workGuard := guard } where
  alive := hcrash
  fresh h := absurd h hr
  guard _ := hg
  length h := (List.length_map _).trans (hs.length h)
  counted := by
    show s.runningThreads = (s.threadPool.map _).countP _
    rw [List.countP_map, hs.counted]
    rfl
  live _ hj := by
    obtain ⟨t, ht, hj⟩ := hj
    obtain ⟨u, -, rfl⟩ := List.mem_map.1 ht
    simp at hj

theorem inv_advance (hs : Inv threads s) : Inv threads s.advance.2 := by
  have hruns : s.call ≠ .none → s.runs ≠ 0 := fun hc hr => hc (hs.fresh hr).1
  unfold State.advance
  split
  · rename_i hc
    have hr := hruns (by simp [hc])
    have hguard := hs.guard hr (by simp [hc])
    unfold State.stopStep
    split
    · split
      · exact inv_joined hs hr (by simp) fun _ => hguard
      · exact hs
    · have hbusy : Call.stopping ≠ .none := by simp
      have h := inv_busy hs hr s.core.stopStep hbusy (by simp) (by simp [hc])
      rwa [← hc] at h
  · rename_i last hc
    exact inv_busy hs (hruns (by simp [hc])) _ (by simp) (by simp) (by simp [hc])
  · rename_i last hc
    have hr := hruns (by simp [hc])
    have hguard := hs.guard hr (by simp [hc])
    split
    · split
      · exact inv_joined hs hr (by simp) fun h => absurd rfl h
      · exact inv_joined hs hr (by simp) fun _ => hguard
    · exact hs
  · exact hs
  · exact hs
  · exact hs

theorem calls_keeps {f : Answer × State} (hs : Inv threads s)
    (hf : s.call = .none → Inv threads f.2) : Inv threads (s.calls f).2 := by
  unfold State.calls
  split
  · exact hf ‹_›
  · exact hs

theorem inv_reset (hs : Inv threads s) (hc : s.call = .none) (hr : s.runs ≠ 0) {call : Call}
    (hnone : call ≠ .none) (hcrash : call ≠ .crashed) : Inv threads (s.resetGuard call).2 := by
  rw [resetGuard_eq hs hc hr]
  exact inv_busy hs hr _ hnone hcrash (by simp [hc])

/-- `run` ends the program where threads have not been joined and none has been scheduled, and
throws where one has. -/
theorem run_answer (hs : Inv threads s) (hc : s.call = .none) (hj : s.Unjoined) :
    (s.run threads).1
      = if ∃ t ∈ s.threadPool, t.stage ≠ .created then .threw else .terminated := by
  have hlive := hs.live hc hj
  unfold State.run
  by_cases hsched : ∃ t ∈ s.threadPool, t.stage ≠ .created
  · have hpos : s.runningThreads ≠ 0 := by
      obtain ⟨t, ht, hst⟩ := hsched
      have hrunning : t.stage = .running := by
        have hfin := hlive.unfinished t ht
        cases hstage : t.stage <;> simp_all
      rw [hs.counted, ← Nat.pos_iff_ne_zero, List.countP_pos_iff]
      exact ⟨t, ht, by simpa using hrunning⟩
    rw [if_pos hpos, if_pos hsched]
  · have hzero : s.runningThreads = 0 := by
      rw [hs.counted, List.countP_eq_zero]
      intro t ht
      have hcreated : t.stage = .created := by_contra fun h => hsched ⟨t, ht, h⟩
      simp [hcreated]
    rw [if_neg (by simpa using hzero), if_pos (unjoined_iff.1 hj), if_neg hsched]

/-- A `run` that finds all threads joined returns or throws. -/
theorem run_joined (hj : ¬ s.Unjoined) : (s.run threads).1 ≠ .terminated := by
  rw [unjoined_iff] at hj
  unfold State.run
  by_cases hzero : s.runningThreads ≠ 0
  · rw [if_pos hzero]
    simp
  · rw [if_neg hzero, if_neg hj]
    simp

theorem run_ready (hs : Inv threads s) (ha : Ready s .run) (hc : s.call = .none) :
    (s.run threads).1 ≠ .terminated := by
  by_cases hj : s.Unjoined
  · rw [run_answer hs hc hj, if_pos (ha hc hj)]
    simp
  · exact run_joined hj

theorem run_not_dereferenced (s : State) : (s.run threads).1 ≠ .dereferenced := by
  unfold State.run
  split
  · simp
  · split <;> simp

theorem advance_answer (s : State) : s.advance.1 ≠ .dereferenced ∧ s.advance.1 ≠ .terminated := by
  unfold State.advance State.stopStep
  split
  · split
    · split <;> simp
    · simp
  · simp
  · split
    · split <;> simp
    · simp
  · simp
  · simp
  · simp

/-! ## Over a run -/

/-- The pool does not see what becomes of the posted jobs and of `stop`. -/
theorem Inv.untouched (hs : Inv threads s) {core : AsyncDeleter.State}
    (h : core.ioStopped = s.core.ioStopped ∧ core.guarded = s.core.guarded
      ∧ core.workers = s.core.workers) : Inv threads { s with core := core } :=
  hs.core h.1 h.2.1 fun _ hin => by rwa [h.2.2]

theorem post_untouched (s : AsyncDeleter.State) (k : ℕ) :
    (s.post k).ioStopped = s.ioStopped ∧ (s.post k).guarded = s.guarded
      ∧ (s.post k).workers = s.workers := by
  unfold AsyncDeleter.State.post
  split
  · exact ⟨rfl, rfl, rfl⟩
  · exact ⟨rfl, rfl, rfl⟩

theorem wake_untouched (s : AsyncDeleter.State) :
    s.wake.ioStopped = s.ioStopped ∧ s.wake.guarded = s.guarded ∧ s.wake.workers = s.workers := by
  unfold AsyncDeleter.State.wake
  split
  · exact ⟨rfl, rfl, rfl⟩
  · exact ⟨rfl, rfl, rfl⟩

theorem step_keeps (hs : Inv threads s) (a : Action) (ha : Ready s a) :
    Inv threads (step threads s a).2 := by
  cases a with
  | run => exact calls_keeps hs fun hc => inv_run hs (run_ready hs ha hc)
  | submit file =>
    exact calls_keeps hs fun _ =>
      hs.untouched (post_untouched (s.core.submit file) s.core.submitting.length)
  | stop =>
    refine calls_keeps hs fun hc => ?_
    have hs' : Inv threads { s with core := { s.core with stop := .locking } } :=
      hs.untouched ⟨rfl, rfl, rfl⟩
    exact inv_reset hs' hc (ha hc) (by simp) (by simp)
  | forceStop => exact calls_keeps hs fun hc => inv_reset hs hc (ha hc) (by simp) (by simp)
  | status => exact calls_keeps hs fun _ => hs
  | destroy => exact calls_keeps hs fun hc => inv_reset hs hc (ha hc) (by simp) (by simp)
  | advance => exact inv_advance hs
  | begin i => exact inv_begin hs i
  | work i k r => exact inv_work hs i k r
  | finish i => exact inv_finish hs i
  | runOut => exact inv_runOut hs
  | wake => exact hs.untouched (wake_untouched s.core)

theorem calls_answer {f : Answer × State} {P : Answer → Prop} (hnone : P .none)
    (hf : s.call = .none → P f.1) : P (s.calls f).1 := by
  unfold State.calls
  split
  · exact hf ‹_›
  · exact hnone

theorem reset_safe (hs : Inv threads s) (hc : s.call = .none) (hr : s.runs ≠ 0) (call : Call) :
    (s.resetGuard call).1 ≠ .dereferenced ∧ (s.resetGuard call).1 ≠ .terminated := by
  rw [resetGuard_eq hs hc hr]
  simp

theorem step_safe (hs : Inv threads s) (a : Action) (ha : Ready s a) : Safe threads s a := by
  suffices H : (step threads s a).1 ≠ .dereferenced ∧ (step threads s a).1 ≠ .terminated by
    refine ⟨H.1, H.2, ?_⟩
    rintro rfl hc hj
    show (s.calls (s.run threads)).1 = .threw
    rw [State.calls, if_pos hc, run_answer hs hc hj, if_pos (ha hc hj)]
  have hcalls : ∀ {f : Answer × State},
      (s.call = .none → f.1 ≠ .dereferenced ∧ f.1 ≠ .terminated) →
      (s.calls f).1 ≠ .dereferenced ∧ (s.calls f).1 ≠ .terminated := fun hf =>
    calls_answer (P := fun o => o ≠ .dereferenced ∧ o ≠ .terminated) (by simp) hf
  cases a with
  | run => exact hcalls fun hc => ⟨run_not_dereferenced s, run_ready hs ha hc⟩
  | submit file => exact hcalls fun _ => by simp
  | stop =>
    have hs' : Inv threads { s with core := { s.core with stop := .locking } } :=
      hs.untouched ⟨rfl, rfl, rfl⟩
    exact hcalls fun hc => reset_safe hs' hc (ha hc) _
  | forceStop => exact hcalls fun hc => reset_safe hs hc (ha hc) _
  | status => exact hcalls fun _ => by simp
  | destroy => exact hcalls fun hc => reset_safe hs hc (ha hc) _
  | advance => exact advance_answer s
  | begin | work | finish | runOut | wake => simp [step]

theorem reset_dereferences (hs : Inv threads s) (hr : s.runs = 0) (core : AsyncDeleter.State)
    (call : Call) : (s.calls ({ s with core := core }.resetGuard call)).1 = .dereferenced := by
  obtain ⟨hc, hguard, -, -⟩ := hs.fresh hr
  rw [State.calls, if_pos hc, State.resetGuard, if_neg (by simp [hguard])]

theorem not_safe (hs : Inv threads s) {a : Action} (ha : ¬ Ready s a) : ¬ Safe threads s a := by
  cases a with
  | run =>
    simp only [Ready, Classical.not_imp] at ha
    obtain ⟨hc, hj, hsched⟩ := ha
    refine fun h => h.2.1 ?_
    show (s.calls (s.run threads)).1 = .terminated
    rw [State.calls, if_pos hc, run_answer hs hc hj, if_neg hsched]
  | stop =>
    simp only [Ready, Classical.not_imp, not_not] at ha
    exact fun h => h.1 (reset_dereferences hs ha.2 _ _)
  | forceStop =>
    simp only [Ready, Classical.not_imp, not_not] at ha
    exact fun h => h.1 (reset_dereferences hs ha.2 s.core _)
  | destroy =>
    simp only [Ready, Classical.not_imp, not_not] at ha
    exact fun h => h.1 (reset_dereferences hs ha.2 s.core _)
  | _ => exact absurd trivial ha

/-- In every sequence of calls, with the threads scheduled in any way: the calls are safe exactly
if no `stop`, `force_stop` or destruction comes before the first `run`, and every `run` comes when
the threads of the last one have been joined, or one of them has been scheduled. -/
theorem lifecycle_safe_iff (threads : ℕ) (as : List Action) :
    RunOk (step threads) (Safe threads) construct as
      ↔ RunOk (step threads) Ready construct as :=
  runOk_iff (I := Inv threads)
    (fun _ a hs _ ha => ⟨step_keeps hs a ha, step_safe hs a ha⟩)
    (fun _ _ hs _ ha => not_safe hs ha) _ as (inv_construct threads) (RunOk.top _ as)

/-- A deleter that is destroyed without a `run`, and two calls of `run` before a thread is
scheduled. -/
theorem destroyed_unused :
    ¬ RunOk (step 1) (Safe 1) construct [.destroy] ∧
      ¬ RunOk (step 1) (Safe 1) construct [.run, .run] :=
  ⟨fun h => h.1.1 (by decide), fun h => h.2.1.2.1 (by decide)⟩

end Lifecycle

end AsyncDeleter

end XCache
