import XCache.Proofs.DeleterShutdown

/-!
# The deleter's jobs, from one `run` to the next

`force_stop` leaves the handlers that no thread has taken in the context, and `run` resets the
context and not its queue, so those are for the threads of the next `run`. A thread is joined once
it has left `io.run()`, with no job, and `run` drops the threads only when all are joined: no job is
lost with one of them (`Kept`). So over any sequence of calls a job is queued, or in `remove_all`,
or has been through it once (`jobs_kept`).
-/

namespace XCache

namespace AsyncDeleter

/-- The job a thread is in `remove_all` for. -/
def Phase.removes : Phase → Option Job
  | .removing j => some j
  | .idle | .removed _ | .locking | .notifying | .unlocking | .exited => none

/-- Where the jobs are, and those that are done. -/
def State.places (s : State) : List Job :=
  s.submitting ++ s.ioQueue ++ held Phase.removes s.workers ++ s.removed

variable {s : State} {i : ℕ} {p q : Phase} {j : Job}

theorem places_moved (hi : s.workers[i]? = some p) (hpq : q.removes = p.removes) :
    (s.moved i q).places.Perm s.places :=
  ((held_stay hi hpq).append_left _).append_right _

theorem places_take (hi : s.workers[i]? = some .idle) (k : ℕ) :
    (s.take i k).places.Perm s.places := by
  unfold State.take
  split
  · rename_i j hk
    have htake : (held Phase.removes (s.workers.set i (.removing j))).Perm
        (j :: held Phase.removes s.workers) := held_take hi rfl rfl
    rw [List.perm_iff_count]
    intro j'
    have herase := (perm_eraseIdx hk).count_eq j'
    have htake := htake.count_eq j'
    simp only [State.places, State.moved, List.count_append, List.count_cons] at herase htake ⊢
    omega
  · exact .refl _

theorem places_removeAll (hi : s.workers[i]? = some (.removing j)) (r : Removal) :
    (s.removeAll i j r).places.Perm s.places := by
  have hrelease : (j :: held Phase.removes (s.workers.set i (.removed j))).Perm
      (held Phase.removes s.workers) := held_release hi rfl rfl
  rw [List.perm_iff_count]
  intro j'
  have hrelease := hrelease.count_eq j'
  simp only [State.places, State.removeAll, State.moved, List.count_append, List.count_cons,
    List.count_nil] at hrelease ⊢
  omega

theorem places_work (s : State) (i k : ℕ) (r : Removal) : (s.work i k r).places.Perm s.places := by
  unfold State.work
  split
  · rename_i hi
    split
    · exact places_moved hi rfl
    · exact places_take hi k
  · exact places_removeAll (by assumption) r
  · rename_i j hi
    have hmoved : (s.moved i (if s.workingJobs ≤ 2 then .locking else .idle)).places.Perm
        s.places := by
      refine places_moved hi ?_
      split <;> rfl
    exact hmoved
  · rename_i hi
    unfold State.lock
    split
    · exact places_moved (q := .notifying) hi rfl
    · exact .refl _
  · rename_i hi
    exact places_moved (q := .unlocking) hi rfl
  · rename_i hi
    exact places_moved (q := .idle) hi rfl
  · exact .refl _
  · exact .refl _

theorem places_post (s : State) (k : ℕ) : (s.post k).places.Perm s.places := by
  unfold State.post
  split
  · rename_i j hk
    rw [List.perm_iff_count]
    intro j'
    have herase := (perm_eraseIdx hk).count_eq j'
    simp only [State.places, List.count_append, List.count_cons, List.count_nil] at herase ⊢
    omega
  · exact .refl _

theorem places_submit (h : s.places.Perm s.submitted) (file : List UInt8) :
    (s.submit file).places.Perm (s.submit file).submitted := by
  rw [List.perm_iff_count]
  intro j
  have hcount := h.count_eq j
  simp only [State.places, State.submit, List.count_append] at hcount ⊢
  omega

/-- A thread that has left `io.run()` stays outside. -/
theorem work_exited {n : ℕ} (hn : s.workers[n]? = some .exited) (i k : ℕ) (r : Removal) :
    (s.work i k r).workers[n]? = some .exited := by
  have hmove : ∀ {p q : Phase}, s.workers[i]? = some p → p ≠ .exited →
      (s.workers.set i q)[n]? = some .exited := by
    intro p q hi hp
    have hne : i ≠ n := by
      rintro rfl
      exact hp (Option.some.inj (hi.symm.trans hn))
    rw [List.getElem?_set_ne hne]
    exact hn
  unfold State.work
  split
  · rename_i hi
    split
    · exact hmove hi nofun
    · unfold State.take
      split
      · exact hmove hi nofun
      · exact hn
  · rename_i hi
    exact hmove hi nofun
  · rename_i hi
    exact hmove hi nofun
  · rename_i hi
    unfold State.lock
    split
    · exact hmove hi nofun
    · exact hn
  · rename_i hi
    exact hmove hi nofun
  · rename_i hi
    exact hmove hi nofun
  · exact hn
  · exact hn

namespace Lifecycle

variable {threads : ℕ} {s : State} {i : ℕ} {t : Thread}

structure Kept (s : State) : Prop where
  accounts : Accounts s.core
  placed : s.core.places.Perm s.core.submitted
  posted : s.core.submitting = []
  length : s.threadPool.length = s.core.workers.length
  outside : ∀ (i : ℕ) (t : Thread), s.threadPool[i]? = some t → t.stage = .finished →
    s.core.workers[i]? = some .exited
  joined : ∀ t ∈ s.threadPool, t.joinable = false → t.stage = .finished
  waited : s.call = .stopping → s.core.stop.pastWait → s.core.workingJobs = 0

theorem construct_kept : Kept construct where
  accounts := (start_accounts 0).keep (.refl _) rfl rfl rfl (fun _ hj => hj) fun _ hj => .inl hj
  placed := .refl _
  posted := rfl
  length := rfl
  outside i t hi := by simp [construct] at hi
  joined t ht := by simp [construct] at ht
  waited h := by simp [construct] at h

namespace Kept

/-- A step that touches the lock, the guard, the context or `stop`, and goes on to `call`. -/
theorem frame (h : Kept s) (lock : Option Holder) (guarded stopped : Bool) {stop : StopPhase}
    {call : Call} (hwait : call = .stopping → stop.pastWait → s.core.workingJobs = 0) :
    Kept { s with
      core := { s.core with
        cvLock := lock, guarded := guarded, ioStopped := stopped, stop := stop }
      call := call } where
  accounts := h.accounts.keep (.refl _) rfl rfl rfl (fun _ hj => hj) fun _ hj => .inl hj
  placed := h.placed
  posted := h.posted
  length := h.length
  outside := h.outside
  joined := h.joined
  waited := hwait

/-- All threads have finished, so none has a job. -/
theorem exited (h : Kept s) (hall : ∀ t ∈ s.threadPool, t.stage = .finished) :
    ∀ p ∈ s.core.workers, p = .exited := by
  intro p hp
  obtain ⟨i, hi⟩ := List.mem_iff_getElem?.1 hp
  have hlt : i < s.threadPool.length := h.length ▸ (List.getElem?_eq_some_iff.1 hi).1
  have hexit := h.outside i _ (List.getElem?_eq_getElem hlt) (hall _ (List.getElem_mem hlt))
  exact Option.some.inj (hi.symm.trans hexit)

theorem held_exited {hold : Phase → Option Job} (hout : hold .exited = none) {ws : List Phase}
    (hws : ∀ p ∈ ws, p = .exited) : held hold ws = [] :=
  List.filterMap_eq_nil_iff.2 fun p hp => by rw [hws p hp, hout]

/-- The threads are joined. -/
theorem join (h : Kept s) (hall : s.allFinished = true) (lock : Option Holder) (stop : StopPhase)
    (guard : Bool) {call : Call} (hcall : call ≠ .stopping) :
    Kept { s.joined call with
      core := { s.core with cvLock := lock, stop := stop }, workGuard := guard } := by
  have hstage : ∀ t ∈ s.threadPool, t.stage = .finished := by simpa [State.allFinished] using hall
  refine ⟨h.accounts.keep (.refl _) rfl rfl rfl (fun _ hj => hj) fun _ hj => .inl hj, h.placed,
    h.posted, (List.length_map _).trans h.length, fun i t hi ht => ?_, fun t ht _ => ?_,
    fun hc => absurd hc hcall⟩
  · obtain ⟨u, hu, rfl⟩ := Option.map_eq_some_iff.1 (List.getElem?_map ▸ hi)
    exact h.outside i u hu ht
  · obtain ⟨u, hu, rfl⟩ := List.mem_map.1 ht
    exact hstage u hu

/-- Thread `i` goes on to another stage. -/
theorem moved (h : Kept s) (hi : s.threadPool[i]? = some t) {st : Stage} {n : ℕ}
    (hout : st = .finished → s.core.workers[i]? = some .exited)
    (hjoin : t.joinable = false → st = .finished) :
    Kept { s with
      threadPool := s.threadPool.set i ⟨st, t.joinable⟩
      runningThreads := n } where
  accounts := h.accounts
  placed := h.placed
  posted := h.posted
  length := (List.length_set ..).trans h.length
  outside k u hk hu := by
    rcases getElem?_move hk with ⟨rfl, rfl⟩ | ⟨-, hk⟩
    · exact hout hu
    · exact h.outside k u hk hu
  joined u hu hj := by
    rcases List.mem_or_eq_of_mem_set hu with hu | rfl
    · exact h.joined u hu hj
    · exact hjoin hj
  waited := h.waited

theorem run (h : Kept s) (threads : ℕ) : Kept (s.run threads).2 := by
  unfold State.run
  split
  · exact h
  · split
    · exact h.frame s.core.cvLock s.core.guarded s.core.ioStopped nofun
    · rename_i hjoined
      -- the threads that are dropped have been joined
      have hall : ∀ t ∈ s.threadPool, t.stage = .finished := by
        intro t ht
        refine h.joined t ht ?_
        simpa using fun hj => hjoined (List.any_eq_true.2 ⟨t, ht, hj⟩)
      have hold : ∀ {hold : Phase → Option Job}, hold .exited = none → hold .idle = none →
          held hold (List.replicate threads .idle) = held hold s.core.workers := by
        intro hold hout hidle
        rw [held_replicate hidle, held_exited hout (h.exited hall)]
      refine ⟨h.accounts.keep ?_ rfl rfl rfl (fun _ hj => hj) fun j hj => ?_, ?_, h.posted,
        (List.length_replicate ..).trans (List.length_replicate ..).symm, fun i t hi ht => ?_,
        fun t ht hj => ?_, h.waited⟩
      · exact .of_eq (congrArg (s.core.submitting ++ s.core.ioQueue ++ ·) (hold rfl rfl))
      · exact absurd (List.eq_of_mem_replicate hj) nofun
      · refine .trans (.of_eq ?_) h.placed
        exact congrArg (s.core.submitting ++ s.core.ioQueue ++ · ++ s.core.removed) (hold rfl rfl)
      · rw [List.eq_of_mem_replicate (List.mem_of_getElem? hi)] at ht
        nomatch ht
      · rw [List.eq_of_mem_replicate ht] at hj
        nomatch hj

theorem submit (h : Kept s) (hcall : s.call = .none) (file : List UInt8) :
    Kept (s.submit file) where
  accounts := (h.accounts.submit file).post _
  placed := by
    have hsub : (s.core.submit file).places.Perm (s.core.submit file).submitted :=
      places_submit h.placed file
    refine (places_post _ _).trans (hsub.trans (.of_eq ?_))
    simp only [State.submit, AsyncDeleter.State.post]
    split <;> rfl
  posted := by simp [State.submit, AsyncDeleter.State.submit, AsyncDeleter.State.post, h.posted]
  length := by
    have hlength := h.length
    simp only [State.submit, AsyncDeleter.State.post]
    split <;> exact hlength
  outside := by
    have houtside := h.outside
    simp only [State.submit, AsyncDeleter.State.post]
    split <;> exact houtside
  joined := h.joined
  waited hc := absurd (hcall.symm.trans hc) (by simp)

theorem work (h : Kept s) (i k : ℕ) (r : Removal) : Kept (s.work i k r) := by
  unfold State.work
  split
  · obtain ⟨hsub, hcount, hlength, hstop⟩ := work_keeps s.core i k r
    refine ⟨h.accounts.work i k r, ?_, hsub.trans h.posted, h.length.trans hlength.symm,
      fun n t hn ht => work_exited (h.outside n t hn ht) i k r, h.joined, fun hc hpast => ?_⟩
    · exact (places_work s.core i k r).trans
        (h.placed.trans (.of_eq (work_submitted s.core i k r).symm))
    · exact Nat.le_zero.1 (hcount.trans (h.waited hc (pastWait_work hpast)).le)
  · exact h

theorem begin (h : Kept s) (i : ℕ) : Kept (s.begin i) := by
  unfold State.begin
  split
  · rename_i joinable hi
    exact h.moved hi nofun fun hj => nomatch h.joined _ (List.mem_of_getElem? hi) hj
  · exact h

theorem finish (h : Kept s) (i : ℕ) : Kept (s.finish i) := by
  unfold State.finish
  split
  · rename_i joinable hi hexit
    exact h.moved hi (fun _ => hexit) fun _ => rfl
  · exact h

/-- `stop` finds the count zero, and no job is submitted until it returns. -/
theorem stopStep (h : Kept s) (hcall : s.call = .stopping) : Kept s.stopStep.2 := by
  unfold State.stopStep
  split
  · split
    · rename_i hall
      exact h.join hall none .returned s.workGuard nofun
    · exact h
  · have hzero : s.core.stopStep.stop.pastWait → s.core.workingJobs = 0 := by
      intro hpast
      rcases hwait : s.core.stop.pastWait with _ | _
      · exact pastWait_stopStep hwait hpast
      · exact h.waited hcall hwait
    obtain ⟨lock, guarded, stopped, stop, hstop⟩ := stopStep_frame s.core
    rw [hstop] at hzero ⊢
    exact h.frame lock guarded stopped fun _ => hzero

theorem advance (h : Kept s) : Kept s.advance.2 := by
  unfold State.advance
  split
  · exact h.stopStep (by assumption)
  · exact h.frame s.core.cvLock s.core.guarded true nofun
  · rename_i last hc
    split
    · rename_i hall
      split
      · exact h.join hall s.core.cvLock s.core.stop false nofun
      · exact h.join hall s.core.cvLock s.core.stop s.workGuard nofun
    · exact h
  · exact h
  · exact h
  · exact h

/-- `work_guard->reset()`. -/
theorem reset (h : Kept s) (stop : StopPhase) {call : Call}
    (hwait : call = .stopping → stop.pastWait = false) :
    Kept ({ s with core := { s.core with stop := stop } }.resetGuard call).2 := by
  unfold State.resetGuard
  split
  · exact h.frame s.core.cvLock false s.core.ioStopped fun hc hpast => by simp [hwait hc] at hpast
  · exact h.frame s.core.cvLock s.core.guarded s.core.ioStopped nofun

theorem calls (h : Kept s) {f : Answer × State} (hf : s.call = .none → Kept f.2) :
    Kept (s.calls f).2 := by
  unfold State.calls
  split
  · exact hf ‹_›
  · exact h

theorem step (h : Kept s) (threads : ℕ) (a : Action) : Kept (step threads s a).2 := by
  cases a with
  | run => exact h.calls fun _ => h.run threads
  | submit file => exact h.calls fun hc => h.submit hc file
  | stop => exact h.calls fun _ => h.reset .locking fun _ => rfl
  | forceStop => exact h.calls fun _ => h.reset s.core.stop (by simp)
  | status => exact h.calls fun _ => h
  | destroy => exact h.calls fun _ => h.reset s.core.stop (by simp)
  | advance => exact h.advance
  | begin i => exact h.begin i
  | work i k r => exact h.work i k r
  | finish i => exact h.finish i
  | runOut =>
    simp only [Lifecycle.step, AsyncDeleter.State.runOut]
    split
    · split
      · exact h.frame s.core.cvLock s.core.guarded true h.waited
      · exact h
    · exact h
  | wake =>
    simp only [Lifecycle.step, AsyncDeleter.State.wake]
    split
    · exact h.frame s.core.cvLock s.core.guarded s.core.ioStopped (by simp [StopPhase.pastWait])
    · exact h

/-- A call that joins the threads returns when they are all outside. -/
theorem returned (h : Kept s) (hret : s.advance.1 = .returned) :
    (∀ p ∈ s.core.workers, p = .exited)
      ∧ (s.call = .stopping → s.core.workingJobs = 0) := by
  have hall : s.allFinished = true ∧ (s.call = .stopping → s.core.stop = .joining) := by
    unfold State.advance at hret
    split at hret
    · unfold State.stopStep at hret
      split at hret
      · rename_i hjoining
        split at hret
        · exact ⟨by assumption, fun _ => hjoining⟩
        · nomatch hret
      · nomatch hret
    · nomatch hret
    · rename_i last hc
      split at hret
      · exact ⟨by assumption, fun hstop => nomatch hc.symm.trans hstop⟩
      · nomatch hret
    · nomatch hret
    · nomatch hret
    · nomatch hret
  refine ⟨h.exited (by simpa [State.allFinished] using hall.1), fun hc => h.waited hc ?_⟩
  rw [hall.2 hc]
  rfl

/-- No thread is in `remove_all`, and none has a job to count off. -/
theorem outside_places (h : Kept s) (hout : ∀ p ∈ s.core.workers, p = .exited) :
    (s.core.ioQueue ++ s.core.removed).Perm s.core.submitted
      ∧ s.core.workingJobs = s.core.ioQueue.length := by
  have hplaces := h.placed
  have hcount := h.accounts.counted
  rw [AsyncDeleter.State.places, h.posted, held_exited rfl hout] at hplaces
  rw [AsyncDeleter.State.pending, h.posted, held_exited rfl hout] at hcount
  exact ⟨by simpa using hplaces, by simpa using hcount⟩

end Kept

/-! ## What is recorded -/

/-- The file of a call of `submit` that is made. -/
def State.submits (s : State) : Action → List (List UInt8)
  | .submit file => if s.call = .none then [file] else []
  | _ => []

/-- The removal that ends in a step. -/
def State.ending (s : State) : Action → Option (Job × Removal)
  | .work i k r =>
    match s.threadPool[i]? with
    | some ⟨.running, _⟩ => s.core.ending (.work i k r)
    | _ => none
  | _ => none

/-- The job that a step counts off. -/
def State.counting (s : State) : Action → Option Job
  | .work i k r =>
    match s.threadPool[i]? with
    | some ⟨.running, _⟩ => s.core.counting (.work i k r)
    | _ => none
  | _ => none

theorem submit_records (s : State) (file : List UInt8) :
    Recorded s.core [file] none none (s.submit file).core := by
  simp only [State.submit, AsyncDeleter.State.post]
  split <;> exact ⟨rfl, (List.append_nil _).symm, (List.append_nil _).symm⟩

theorem resetGuard_records (s : State) (call : Call) :
    Recorded s.core [] none none (s.resetGuard call).2.core := by
  unfold State.resetGuard
  split <;> exact .same rfl rfl rfl

theorem run_call_records (s : State) (threads : ℕ) :
    Recorded s.core [] none none (s.run threads).2.core := by
  unfold State.run
  split
  · exact .same rfl rfl rfl
  · split <;> exact .same rfl rfl rfl

theorem advance_records (s : State) : Recorded s.core [] none none s.advance.2.core := by
  unfold State.advance
  split
  · unfold State.stopStep
    split
    · split <;> exact .same rfl rfl rfl
    · obtain ⟨lock, guarded, stopped, stop, hstop⟩ := stopStep_frame s.core
      dsimp only
      rw [hstop]
      exact .same rfl rfl rfl
  · exact .same rfl rfl rfl
  · split
    · split <;> exact .same rfl rfl rfl
    · exact .same rfl rfl rfl
  · exact .same rfl rfl rfl
  · exact .same rfl rfl rfl
  · exact .same rfl rfl rfl

theorem work_call_records (s : State) (i k : ℕ) (r : Removal) :
    Recorded s.core [] (s.ending (.work i k r)) (s.counting (.work i k r))
      (s.work i k r).core := by
  rcases hi : s.threadPool[i]? with _ | ⟨_ | _ | _, joinable⟩ <;>
    simp only [State.ending, State.counting, State.work, hi]
  case some.running => exact work_records s.core i k r
  all_goals exact .same rfl rfl rfl

/-- A call other than `submit` records nothing, whether it is made or not. -/
theorem calls_records {f : Answer × State} (hf : Recorded s.core [] none none f.2.core) :
    Recorded s.core [] none none (s.calls f).2.core := by
  unfold State.calls
  split
  · exact hf
  · exact .same rfl rfl rfl

theorem step_records (threads : ℕ) (s : State) (a : Action) :
    Recorded s.core (s.submits a) (s.ending a) (s.counting a) (step threads s a).2.core := by
  cases a with
  | run => exact calls_records (run_call_records s threads)
  | submit file =>
    simp only [step, State.submits, State.calls]
    split
    · exact submit_records s file
    · exact .same rfl rfl rfl
  | stop =>
    have h := resetGuard_records { s with core := { s.core with stop := .locking } } .stopping
    exact calls_records ⟨h.submitted, h.removed, h.decremented⟩
  | forceStop => exact calls_records (resetGuard_records s _)
  | status => exact calls_records (.same rfl rfl rfl)
  | destroy => exact calls_records (resetGuard_records s _)
  | advance => exact advance_records s
  | begin i =>
    simp only [step, State.begin]
    split <;> exact .same rfl rfl rfl
  | work i k r => exact work_call_records s i k r
  | finish i =>
    simp only [step, State.finish]
    split <;> exact .same rfl rfl rfl
  | runOut =>
    simp only [step, AsyncDeleter.State.runOut]
    split
    · split <;> exact .same rfl rfl rfl
    · exact .same rfl rfl rfl
  | wake =>
    simp only [step, AsyncDeleter.State.wake]
    split <;> exact .same rfl rfl rfl

/-- The jobs submitted are those of the calls of `submit` that are made. -/
theorem run_submitted (threads : ℕ) (s : State) (as : List Action) :
    (run (step threads) s as).2.core.submitted.map Job.file
      = s.core.submitted.map Job.file ++ incoming State.submits (step threads) s as := by
  refine run_record _ (fun s => s.core.submitted.map Job.file) (fun s a => ?_) s as
  rw [(step_records threads s a).submitted, List.map_append, List.map_map]
  exact congrArg _ (List.map_id _)

/-- Over any sequence of calls of `run`, `submit`, `stop`, `force_stop` and `status`, and the
destruction, with the threads scheduled in any way: the jobs are those of the calls of `submit`, and
those removed and counted off those for which a thread has done so; every job submitted is in the
queue of the context, in a `remove_all`, or has been through one, once; and `working_jobs` is the
number of those that have not been counted off. When `stop`, `force_stop` or the destructor has
joined the threads, every job is done or in the queue, where `working_jobs` counts it and the next
`run` finds it; with `stop` none is in the queue. -/
theorem jobs_kept (threads : ℕ) (as : List Action) :
    let s := (run (step threads) construct as).2
    s.core.submitted.map Job.file = incoming State.submits (step threads) construct as
      ∧ s.core.removed
        = incoming (fun s a => ((s.ending a).map Prod.fst).toList) (step threads) construct as
      ∧ s.core.decremented
        = incoming (fun s a => (s.counting a).toList) (step threads) construct as
      ∧ (s.core.ioQueue ++ held Phase.removes s.core.workers ++ s.core.removed).Perm
          s.core.submitted
      ∧ s.core.submitted.Nodup
      ∧ s.core.workingJobs = s.core.unfinished.length
      ∧ ((step threads s .advance).1 = .returned →
        (s.core.ioQueue ++ s.core.removed).Perm s.core.submitted
          ∧ s.core.workingJobs = s.core.ioQueue.length
          ∧ (s.call = .stopping → s.core.ioQueue = [])) := by
  intro s
  have hkept : Kept s :=
    run_invariant (fun _ a h _ => h.step threads a) _ as construct_kept (RunOk.top _ as)
  have hremoved : s.core.removed
      = incoming (fun s a => ((s.ending a).map Prod.fst).toList) (step threads) construct as :=
    run_record _ (fun s => s.core.removed) (fun s a => (step_records threads s a).removed) _ as
  have hcounted : s.core.decremented
      = incoming (fun s a => (s.counting a).toList) (step threads) construct as :=
    run_record _ (fun s => s.core.decremented)
      (fun s a => (step_records threads s a).decremented) _ as
  have hplaces := hkept.placed
  rw [AsyncDeleter.State.places, hkept.posted, List.nil_append] at hplaces
  have hnodup : s.core.submitted.Nodup :=
    List.Nodup.of_map Job.ticket (by rw [hkept.accounts.tickets]; exact List.nodup_range)
  refine ⟨run_submitted threads _ as, hremoved, hcounted, hplaces, hnodup,
    hkept.accounts.workingJobs_eq, fun hret => ?_⟩
  obtain ⟨hout, hzero⟩ := hkept.returned hret
  obtain ⟨hplaces, hcount⟩ := hkept.outside_places hout
  exact ⟨hplaces, hcount, fun hc => List.length_eq_zero_iff.1 (hcount.symm.trans (hzero hc))⟩

end Lifecycle

end AsyncDeleter

end XCache
