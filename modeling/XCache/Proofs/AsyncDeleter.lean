import XCache.AsyncDeleter

/-!
# The deleter's count, and its wait

`working_jobs` counts the jobs that are on their way: about to be posted, posted, or in a thread
that has not counted them off (`Accounts`). Whoever holds `cv_lock` holds it alone, so a handler
that counts the last job off while `stop` is about to sleep or asleep is still to notify it
(`Sync`). So `stop` gets past its wait only when every job is done, and does not sleep on with
nobody to wake it.
-/

namespace XCache

namespace AsyncDeleter

/-- The job a thread has that it has not counted off. -/
def Phase.job : Phase → Option Job
  | .removing j | .removed j => some j
  | .idle | .locking | .notifying | .unlocking | .exited => none

/-- The thread has counted its job off, and is yet to notify. -/
def Phase.aboutToNotify : Phase → Bool
  | .locking | .notifying => true
  | .idle | .removing _ | .removed _ | .unlocking | .exited => false

/-- The thread has `cv_lock`. -/
def Phase.holds : Phase → Bool
  | .notifying | .unlocking => true
  | .idle | .removing _ | .removed _ | .locking | .exited => false

namespace StopPhase

/-- `stop` has `cv_lock`. -/
def holds : StopPhase → Bool
  | .checking | .testing | .blocking | .passed | .joining => true
  | .notCalled | .locking | .asleep | .woken | .returned => false

/-- `stop` has found its predicate false, and sleeps or is about to. -/
def sleeping : StopPhase → Bool
  | .blocking | .asleep => true
  | .notCalled | .locking | .checking | .testing | .woken | .passed | .joining | .returned => false

/-- `stop` is past its wait. -/
def pastWait : StopPhase → Bool
  | .passed | .joining | .returned => true
  | .notCalled | .locking | .checking | .testing | .blocking | .asleep | .woken => false

end StopPhase

namespace State

/-- The jobs that are not counted off, wherever they are. -/
def pending (s : State) : List Job := s.submitting ++ s.ioQueue ++ held Phase.job s.workers

/-- The jobs submitted that are not counted off. -/
def unfinished (s : State) : List Job := s.submitted.filter fun j => ! s.decremented.contains j

end State

variable {s s' : State} {i : ℕ} {p q : Phase} {j : Job}

/-- `stop` touches the lock, the work guard and the context, and none of the jobs. -/
theorem stopStep_frame (s : State) : ∃ lock guarded stopped stop, s.stopStep = { s with
    cvLock := lock, guarded := guarded, ioStopped := stopped, stop := stop } := by
  unfold State.stopStep
  split <;> (try split) <;> exact ⟨_, _, _, _, rfl⟩

/-! ## The count -/

structure Accounts (s : State) : Prop where
  tickets : s.submitted.map Job.ticket = List.range s.submitted.length
  jobs : (s.pending ++ s.decremented).Perm s.submitted
  counted : s.workingJobs = s.pending.length
  ended : ∀ j, .removed j ∈ s.workers → j ∈ s.removed
  done : ∀ j ∈ s.decremented, j ∈ s.removed

theorem start_accounts (threads : ℕ) : Accounts (start threads) where
  tickets := rfl
  jobs := by
    have : held Phase.job (List.replicate threads .idle) = [] := held_replicate rfl
    simp [State.pending, start, this]
  counted := by
    have : held Phase.job (List.replicate threads .idle) = [] := held_replicate rfl
    simp [State.pending, start, this]
  ended j hj := absurd (List.eq_of_mem_replicate hj) (by simp)
  done := by simp [start]

namespace Accounts

theorem keep (h : Accounts s) (hpending : s'.pending.Perm s.pending)
    (hcount : s'.workingJobs = s.workingJobs) (hsub : s'.submitted = s.submitted)
    (hdec : s'.decremented = s.decremented) (hrem : ∀ j ∈ s.removed, j ∈ s'.removed)
    (hended : ∀ j, .removed j ∈ s'.workers → .removed j ∈ s.workers ∨ j ∈ s'.removed) :
    Accounts s' where
  tickets := by rw [hsub]; exact h.tickets
  jobs := by rw [hsub, hdec]; exact (hpending.append_right _).trans h.jobs
  counted := by rw [hcount, h.counted, hpending.length_eq]
  ended j hj := by
    rcases hended j hj with hj | hj
    · exact hrem j (h.ended j hj)
    · exact hj
  done j hj := hrem j (h.done j (hdec ▸ hj))

theorem moved (h : Accounts s) (hi : s.workers[i]? = some p) (hpq : q.job = p.job)
    (hq : ∀ j, q = .removed j → j ∈ s.removed) : Accounts (s.moved i q) := by
  refine h.keep ((held_stay hi hpq).append_left _) rfl rfl rfl (fun _ hj => hj) fun j hj => ?_
  rcases List.mem_or_eq_of_mem_set hj with hj | hj
  · exact .inl hj
  · exact .inr (hq j hj.symm)

theorem submit (h : Accounts s) (file : List UInt8) : Accounts (s.submit file) where
  tickets := by
    simp only [State.submit, List.map_append, h.tickets, List.length_append, List.length_singleton,
      List.range_succ]
    rfl
  jobs := by
    have hmid := @List.perm_middle _ ⟨s.submitted.length, file⟩ s.submitting
      (s.ioQueue ++ held Phase.job s.workers ++ s.decremented)
    have hjobs := h.jobs
    simp only [State.pending, State.submit, List.append_assoc, List.cons_append,
      List.nil_append] at hmid hjobs ⊢
    exact (hmid.trans (hjobs.cons _)).trans (List.perm_append_singleton _ _).symm
  counted := by
    have := h.counted
    simp only [State.pending, State.submit, List.length_append, List.length_singleton] at this ⊢
    omega
  ended := h.ended
  done := h.done

theorem post (h : Accounts s) (k : ℕ) : Accounts (s.post k) := by
  unfold State.post
  split
  · rename_i j hk
    refine h.keep ?_ rfl rfl rfl (fun _ hj => hj) fun j hj => .inl hj
    rw [List.perm_iff_count]
    intro j'
    have herase := (perm_eraseIdx hk).count_eq j'
    simp only [State.pending, List.count_append, List.count_cons, List.count_nil] at herase ⊢
    omega
  · exact h

theorem take (h : Accounts s) (hi : s.workers[i]? = some .idle) (k : ℕ) :
    Accounts (s.take i k) := by
  unfold State.take
  split
  · rename_i j hk
    refine h.keep ?_ rfl rfl rfl (fun _ hj => hj) fun j' hj => ?_
    · have htake : (held Phase.job (s.workers.set i (.removing j))).Perm
          (j :: held Phase.job s.workers) := held_take hi rfl rfl
      rw [List.perm_iff_count]
      intro j'
      have herase := (perm_eraseIdx hk).count_eq j'
      have htake := htake.count_eq j'
      simp only [State.pending, State.moved, List.count_append, List.count_cons] at herase htake ⊢
      omega
    · rcases List.mem_or_eq_of_mem_set hj with hj | hj
      · exact .inl hj
      · simp at hj
  · exact h

theorem removeAll (h : Accounts s) (hi : s.workers[i]? = some (.removing j)) (r : Removal) :
    Accounts (s.removeAll i j r) := by
  have hstay : (held Phase.job (s.workers.set i (.removed j))).Perm (held Phase.job s.workers) :=
    held_stay hi rfl
  refine h.keep (hstay.append_left _) rfl rfl rfl (fun _ hj => List.mem_append_left _ hj)
    fun j' hj => ?_
  rcases List.mem_or_eq_of_mem_set hj with hj | hj
  · exact .inl hj
  · obtain rfl : j' = j := by simpa using hj
    exact .inr (List.mem_append_right _ List.mem_cons_self)

/-- The job counted off is one of those counted, so the counter does not go below zero. -/
theorem decrement (h : Accounts s) (hi : s.workers[i]? = some (.removed j)) :
    Accounts (s.decrement i j) := by
  have hrelease : (j :: held Phase.job (s.decrement i j).workers).Perm
      (held Phase.job s.workers) := by
    refine held_release hi rfl ?_
    split <;> rfl
  have hpending : s.pending.Perm (j :: (s.decrement i j).pending) :=
    (hrelease.symm.append_left _).trans List.perm_middle
  refine ⟨h.tickets, ?_, ?_, fun j' hj => ?_, fun j' hj => ?_⟩
  · refine .trans ?_ h.jobs
    rw [List.perm_iff_count]
    intro j'
    have := hpending.count_eq j'
    simp only [State.decrement, List.count_append, List.count_cons, List.count_nil] at this ⊢
    omega
  · have := hpending.length_eq
    rw [List.length_cons] at this
    show s.workingJobs - 1 = (s.decrement i j).pending.length
    rw [h.counted]
    omega
  · rcases List.mem_or_eq_of_mem_set hj with hj | hj
    · exact h.ended j' hj
    · split at hj <;> simp at hj
  · rcases List.mem_append.1 hj with hj | hj
    · exact h.done j' hj
    · obtain rfl := List.mem_singleton.1 hj
      exact h.ended j' (List.mem_of_getElem? hi)

theorem work (h : Accounts s) (i k : ℕ) (r : Removal) : Accounts (s.work i k r) := by
  unfold State.work
  split
  · rename_i hi
    split
    · exact h.moved hi rfl (by simp)
    · exact h.take hi k
  · exact h.removeAll (by assumption) r
  · exact h.decrement (by assumption)
  · rename_i hi
    unfold State.lock
    split
    · exact (h.moved (q := .notifying) hi rfl (by simp)).keep (.refl _) rfl rfl rfl
        (fun _ hj => hj) fun _ hj => .inl hj
    · exact h
  · rename_i hi
    exact (h.moved (q := .unlocking) hi rfl (by simp)).keep (.refl _) rfl rfl rfl
      (fun _ hj => hj) fun _ hj => .inl hj
  · rename_i hi
    exact (h.moved (q := .idle) hi rfl (by simp)).keep (.refl _) rfl rfl rfl
      (fun _ hj => hj) fun _ hj => .inl hj
  · exact h
  · exact h

theorem step (h : Accounts s) (a : Action) : Accounts (step s a).2 := by
  have hkeep : ∀ lock guarded stopped stop, Accounts { s with
      cvLock := lock, guarded := guarded, ioStopped := stopped, stop := stop } := fun _ _ _ _ =>
    h.keep (.refl _) rfl rfl rfl (fun _ hj => hj) fun _ hj => .inl hj
  cases a with
  | submit file => exact h.submit file
  | post k => exact h.post k
  | work i k r => exact h.work i k r
  | runOut =>
    simp only [AsyncDeleter.step, State.runOut]
    split
    · exact hkeep _ _ _ _
    · exact h
  | stop =>
    obtain ⟨lock, guarded, stopped, stop, hstop⟩ := stopStep_frame s
    simp only [AsyncDeleter.step, hstop]
    exact hkeep lock guarded stopped stop
  | wake =>
    simp only [AsyncDeleter.step, State.wake]
    split
    · exact hkeep _ _ _ _
    · exact h

/-- `working_jobs` is the number of the jobs submitted that are not counted off. -/
theorem workingJobs_eq (h : Accounts s) : s.workingJobs = s.unfinished.length := by
  have hnodup : s.submitted.Nodup :=
    List.Nodup.of_map Job.ticket (by rw [h.tickets]; exact List.nodup_range)
  have hdisj := (List.nodup_append.1 (h.jobs.nodup_iff.2 hnodup)).2.2
  have hpending : s.pending.filter (fun j => ! s.decremented.contains j) = s.pending := by
    refine List.filter_eq_self.2 fun j hj => ?_
    simpa using fun hd => hdisj j hj j hd rfl
  have hnone : s.decremented.filter (fun j => ! s.decremented.contains j) = [] :=
    List.filter_eq_nil_iff.2 (by simp)
  have hperm := h.jobs.filter (fun j => ! s.decremented.contains j)
  rw [List.filter_append, hpending, hnone, List.append_nil] at hperm
  rw [h.counted, hperm.length_eq]
  rfl

/-- When `working_jobs` is zero, every job submitted is done. -/
theorem removed_of_zero (h : Accounts s) (hzero : s.workingJobs = 0) {j : Job}
    (hj : j ∈ s.submitted) : j ∈ s.removed := by
  have hnil : s.pending = [] := List.length_eq_zero_iff.1 (by rw [← h.counted, hzero])
  refine h.done j ?_
  have := h.jobs.mem_iff.2 hj
  rwa [hnil, List.nil_append] at this

end Accounts

/-! ## The lock and the wait -/

structure Sync (s : State) : Prop where
  stopLock : s.stop.holds → s.cvLock = some .stop
  workerLock : ∀ i p, s.workers[i]? = some p → p.holds → s.cvLock = some (.worker i)
  awake : s.stop.sleeping → s.workingJobs = 0 → ∃ p ∈ s.workers, p.aboutToNotify

theorem start_sync (threads : ℕ) : Sync (start threads) where
  stopLock h := by simp [start, StopPhase.holds] at h
  workerLock i p hi hp := by
    obtain rfl := List.eq_of_mem_replicate (List.mem_of_getElem? hi)
    simp [Phase.holds] at hp
  awake h := by simp [start, StopPhase.sleeping] at h

namespace Sync

theorem moved (h : Sync s) (hi : s.workers[i]? = some p) (hpq : q.holds → p.holds)
    (hnotify : p.aboutToNotify → q.aboutToNotify) (hw : s'.workers = s.workers.set i q)
    (hlock : s'.cvLock = s.cvLock) (hstop : s'.stop = s.stop)
    (hcount : s'.workingJobs = s.workingJobs) : Sync s' where
  stopLock hs := by rw [hlock]; exact h.stopLock (hstop ▸ hs)
  workerLock k r hk hr := by
    rw [hlock]
    rw [hw] at hk
    rcases getElem?_move hk with ⟨rfl, rfl⟩ | ⟨-, hk⟩
    · exact h.workerLock k p hi (hpq hr)
    · exact h.workerLock k r hk hr
  awake hs hz := by
    rw [hw]
    exact exists_move hi hnotify (h.awake (hstop ▸ hs) (hcount ▸ hz))

theorem decrement (h : Sync s) (hi : s.workers[i]? = some (.removed j)) :
    Sync (s.decrement i j) where
  stopLock := h.stopLock
  workerLock k r hk hr := by
    rcases getElem?_move hk with ⟨rfl, rfl⟩ | ⟨-, hk⟩
    · split at hr <;> simp [Phase.holds] at hr
    · exact h.workerLock k r hk hr
  awake hs hz := by
    -- the count goes to zero from one: the thread is on its way to notify
    have hone : s.workingJobs ≤ 2 := by
      simp only [State.decrement] at hz
      omega
    refine ⟨.locking, ?_, rfl⟩
    simp only [State.decrement, if_pos hone]
    exact mem_move hi

theorem lock (h : Sync s) (hi : s.workers[i]? = some .locking) : Sync (s.lock i) := by
  unfold State.lock
  split
  · rename_i hfree
    refine ⟨fun hs => ?_, fun k r hk hr => ?_, fun hs hz => ?_⟩
    · have := h.stopLock hs
      simp [hfree] at this
    · rcases getElem?_move hk with ⟨rfl, rfl⟩ | ⟨-, hk⟩
      · rfl
      · have := h.workerLock k r hk hr
        simp [hfree] at this
    · exact exists_move hi (fun _ => rfl) (h.awake hs hz)
  · exact h

/-- While a thread notifies, it has the lock: `stop` is not about to sleep. -/
theorem notifyAll (h : Sync s) (hi : s.workers[i]? = some .notifying) : Sync (s.notifyAll i) := by
  have hlock := h.workerLock i _ hi rfl
  have hstop : s.stop.holds = false := by
    by_contra hs
    have := h.stopLock (by simpa using hs)
    simp [hlock] at this
  refine ⟨fun hs => ?_, fun k r hk hr => ?_, fun hs => ?_⟩
  · simp only [State.notifyAll] at hs
    split at hs
    · simp [StopPhase.holds] at hs
    · simp [hstop] at hs
  · rcases getElem?_move hk with ⟨rfl, rfl⟩ | ⟨-, hk⟩
    · exact hlock
    · exact h.workerLock k r hk hr
  · simp only [State.notifyAll] at hs
    split at hs
    · simp [StopPhase.sleeping] at hs
    · rename_i hasleep
      rcases hphase : s.stop <;> simp_all [StopPhase.sleeping, StopPhase.holds]

theorem unlock (h : Sync s) (hi : s.workers[i]? = some .unlocking) : Sync (s.unlock i) := by
  have hlock := h.workerLock i _ hi rfl
  refine ⟨fun hs => ?_, fun k r hk hr => ?_, fun hs hz => ?_⟩
  · have := h.stopLock hs
    simp [hlock] at this
  · rcases getElem?_move hk with ⟨rfl, rfl⟩ | ⟨hne, hk⟩
    · simp [Phase.holds] at hr
    · have := h.workerLock k r hk hr
      rw [hlock] at this
      simp [Ne.symm hne] at this
  · exact exists_move hi (by simp [Phase.aboutToNotify]) (h.awake hs hz)

theorem work (h : Sync s) (i k : ℕ) (r : Removal) : Sync (s.work i k r) := by
  unfold State.work
  split
  · rename_i hi
    split
    · exact h.moved (q := .exited) hi (by simp [Phase.holds]) (by simp [Phase.aboutToNotify])
        rfl rfl rfl rfl
    · unfold State.take
      split
      · exact h.moved (q := .removing _) hi (by simp [Phase.holds])
          (by simp [Phase.aboutToNotify]) rfl rfl rfl rfl
      · exact h
  · exact h.moved (q := .removed _) (by assumption) (by simp [Phase.holds])
      (by simp [Phase.aboutToNotify]) rfl rfl rfl rfl
  · exact h.decrement (by assumption)
  · exact h.lock (by assumption)
  · exact h.notifyAll (by assumption)
  · exact h.unlock (by assumption)
  · exact h
  · exact h

theorem stopMoved (h : Sync s) {guarded stopped : Bool} {stop : StopPhase}
    (hholds : stop.holds → s.stop.holds) (hsleeping : stop.sleeping = false) :
    Sync { s with guarded := guarded, ioStopped := stopped, stop := stop } where
  stopLock hs := h.stopLock (hholds hs)
  workerLock := h.workerLock
  awake hs := by simp [hsleeping] at hs

theorem stopLocks (h : Sync s) (hfree : s.cvLock = none) {stop : StopPhase}
    (hsleeping : stop.sleeping = false) : Sync { s with cvLock := some .stop, stop := stop } where
  stopLock _ := rfl
  workerLock i p hi hp := by
    have := h.workerLock i p hi hp
    simp [hfree] at this
  awake hs := by simp [hsleeping] at hs

theorem stopUnlocks (h : Sync s) (hs : s.stop.holds) {stop : StopPhase}
    (hholds : stop.holds = false) (hsleeping : stop.sleeping → s.stop.sleeping) :
    Sync { s with cvLock := none, stop := stop } where
  stopLock hs := by simp [hholds] at hs
  workerLock i p hi hp := by
    have := h.workerLock i p hi hp
    simp [h.stopLock hs] at this
  awake hs hz := h.awake (hsleeping hs) hz

theorem stopStep (h : Sync s) : Sync s.stopStep := by
  unfold State.stopStep
  split
  · exact h.stopMoved (by simp [StopPhase.holds]) rfl
  · split
    · exact h.stopLocks (by assumption) rfl
    · exact h
  · rename_i hs
    split
    · exact h.stopMoved (by simp [hs, StopPhase.holds]) rfl
    · exact h.stopMoved (by simp [hs, StopPhase.holds]) rfl
  · rename_i hs
    split
    · exact h.stopMoved (by simp [hs, StopPhase.holds]) rfl
    · rename_i hcount
      exact ⟨fun _ => h.stopLock (by simp [hs, StopPhase.holds]), h.workerLock,
        fun _ hz => absurd hz hcount⟩
  · rename_i hs
    exact h.stopUnlocks (by simp [hs, StopPhase.holds]) rfl (by simp [hs, StopPhase.sleeping])
  · exact h
  · split
    · exact h.stopLocks (by assumption) rfl
    · exact h
  · rename_i hs
    exact h.stopMoved (by simp [hs, StopPhase.holds]) rfl
  · rename_i hs
    split
    · exact h.stopUnlocks (by simp [hs, StopPhase.holds]) rfl (by simp [StopPhase.sleeping])
    · exact h
  · exact h

theorem step (h : Sync s) (a : Action) : Sync (step s a).2 := by
  cases a with
  | submit file =>
    refine ⟨h.stopLock, h.workerLock, fun _ hz => ?_⟩
    simp [AsyncDeleter.step, State.submit] at hz
  | post k =>
    simp only [AsyncDeleter.step, State.post]
    split
    · exact ⟨h.stopLock, h.workerLock, h.awake⟩
    · exact h
  | work i k r => exact h.work i k r
  | runOut =>
    simp only [AsyncDeleter.step, State.runOut]
    split
    · exact ⟨h.stopLock, h.workerLock, h.awake⟩
    · exact h
  | stop => exact h.stopStep
  | wake =>
    simp only [AsyncDeleter.step, State.wake]
    split
    · exact h.stopMoved (by simp [StopPhase.holds]) rfl
    · exact h

end Sync

/-! ## What `stop` waits for -/

theorem pastWait_work {k : ℕ} {r : Removal} (h : (s.work i k r).stop.pastWait) :
    s.stop.pastWait := by
  unfold State.work State.take State.lock State.notifyAll at h
  split at h
  · split at h
    · exact h
    · split at h <;> exact h
  · exact h
  · exact h
  · split at h <;> exact h
  · simp only at h
    split at h
    · simp [StopPhase.pastWait] at h
    · exact h
  · exact h
  · exact h
  · exact h

theorem pastWait_stopStep (hs : s.stop.pastWait = false) (h : s.stopStep.stop.pastWait) :
    s.workingJobs = 0 := by
  rcases hphase : s.stop <;> simp only [State.stopStep, hphase] at h
  case checking =>
    by_contra hne
    simp [hne, StopPhase.pastWait] at h
  case testing =>
    by_contra hne
    simp [hne, StopPhase.pastWait] at h
  case locking | woken =>
    split at h <;> simp [hphase, StopPhase.pastWait] at h
  case passed | joining | returned => simp [hphase, StopPhase.pastWait] at hs
  all_goals simp [StopPhase.pastWait] at h

/-- `stop` gets past its wait only in a step in which it finds `working_jobs` zero. -/
theorem workingJobs_of_passes (a : Action) (hs : s.stop.pastWait = false)
    (h : (step s a).2.stop.pastWait) : s.workingJobs = 0 := by
  cases a with
  | submit file => simp [step, State.submit, hs] at h
  | post k =>
    simp only [step, State.post] at h
    split at h <;> simp [hs] at h
  | work i k r => exact absurd (pastWait_work h) (by simp [hs])
  | runOut =>
    simp only [step, State.runOut] at h
    split at h <;> simp [hs] at h
  | stop => exact pastWait_stopStep hs h
  | wake =>
    simp only [step, State.wake] at h
    split at h
    · simp [StopPhase.pastWait] at h
    · simp [hs] at h

/-! ## What is recorded -/

/-- The file a call of `submit` is for. -/
def Action.submits : Action → List (List UInt8)
  | .submit file => [file]
  | .post _ | .work _ _ _ | .runOut | .stop | .wake => []

/-- The removal that ends in a step. -/
def State.ending (s : State) : Action → Option (Job × Removal)
  | .work i _ r =>
    match s.workers[i]? with
    | some (.removing j) => some (j, r)
    | _ => none
  | _ => none

/-- The job that a step counts off. -/
def State.counting (s : State) : Action → Option Job
  | .work i _ _ =>
    match s.workers[i]? with
    | some (.removed j) => some j
    | _ => none
  | _ => none

/-- The records of a state, and what a step adds to them. -/
structure Recorded (s : State) (files : List (List UInt8)) (ended : Option (Job × Removal))
    (counted : Option Job) (s' : State) : Prop where
  submitted : s'.submitted = s.submitted ++ files.map fun file => ⟨s.submitted.length, file⟩
  removed : s'.removed = s.removed ++ (ended.map Prod.fst).toList
  decremented : s'.decremented = s.decremented ++ counted.toList

/-- The step adds nothing. -/
theorem Recorded.same (hsub : s'.submitted = s.submitted) (hrem : s'.removed = s.removed)
    (hdec : s'.decremented = s.decremented) : Recorded s [] none none s' :=
  ⟨hsub.trans (List.append_nil _).symm, hrem.trans (List.append_nil _).symm,
    hdec.trans (List.append_nil _).symm⟩

theorem work_records (s : State) (i k : ℕ) (r : Removal) :
    Recorded s [] (s.ending (.work i k r)) (s.counting (.work i k r)) (s.work i k r) := by
  unfold State.work
  rcases hi : s.workers[i]? with _ | p
  · simpa only [State.ending, State.counting, hi] using .same rfl rfl rfl
  · simp only [State.ending, State.counting, hi]
    cases p with
    | idle =>
      dsimp only
      unfold State.take
      split
      · exact .same rfl rfl rfl
      · split <;> exact .same rfl rfl rfl
    | removing j => exact ⟨(List.append_nil _).symm, rfl, (List.append_nil _).symm⟩
    | removed j => exact ⟨(List.append_nil _).symm, (List.append_nil _).symm, rfl⟩
    | locking =>
      dsimp only
      unfold State.lock
      split <;> exact .same rfl rfl rfl
    | notifying | unlocking | exited => exact .same rfl rfl rfl

theorem work_submitted (s : State) (i k : ℕ) (r : Removal) :
    (s.work i k r).submitted = s.submitted :=
  (work_records s i k r).submitted.trans (List.append_nil _)

theorem step_records (s : State) (a : Action) :
    Recorded s a.submits (s.ending a) (s.counting a) (step s a).2 := by
  cases a with
  | submit file => exact ⟨rfl, (List.append_nil _).symm, (List.append_nil _).symm⟩
  | post k =>
    simp only [step, State.post]
    split <;> exact .same rfl rfl rfl
  | work i k r => exact work_records s i k r
  | runOut =>
    simp only [step, State.runOut]
    split <;> exact .same rfl rfl rfl
  | stop =>
    obtain ⟨lock, guarded, stopped, stop, hstop⟩ := stopStep_frame s
    simp only [step, hstop]
    exact .same rfl rfl rfl
  | wake =>
    simp only [step, State.wake]
    split <;> exact .same rfl rfl rfl

/-- The jobs submitted are those of the calls of `submit`. -/
theorem run_submitted (s : State) (as : List Action) :
    (run step s as).2.submitted.map Job.file
      = s.submitted.map Job.file ++ as.flatMap Action.submits := by
  rw [← incoming_inputs Action.submits s as]
  refine run_record _ (fun s => s.submitted.map Job.file) (fun s a => ?_) s as
  rw [(step_records s a).submitted, List.map_append, List.map_map]
  exact congrArg _ (List.map_id _)

/-- The jobs removed are those whose removal ended in the run. -/
theorem run_removed (s : State) (as : List Action) :
    (run step s as).2.removed
      = s.removed ++ incoming (fun s a => ((s.ending a).map Prod.fst).toList) step s as :=
  run_record _ State.removed (fun s a => (step_records s a).removed) s as

/-- The jobs counted off are those that a step of the run counts off. -/
theorem run_decremented (s : State) (as : List Action) :
    (run step s as).2.decremented
      = s.decremented ++ incoming (fun s a => (s.counting a).toList) step s as :=
  run_record _ State.decremented (fun s a => (step_records s a).decremented) s as

/-- The jobs `js` have been submitted, and are done once `stop` is past its wait. -/
structure Awaited (js : List Job) (s : State) : Prop where
  accounts : Accounts s
  submitted : js ⊆ s.submitted
  removed : s.stop.pastWait → js ⊆ s.removed

theorem Awaited.step {js : List Job} (h : Awaited js s) (a : Action) :
    Awaited js (step s a).2 := by
  have hrec := step_records s a
  have hsub : s.submitted ⊆ (AsyncDeleter.step s a).2.submitted :=
    hrec.submitted ▸ List.subset_append_left _ _
  have hrem : s.removed ⊆ (AsyncDeleter.step s a).2.removed :=
    hrec.removed ▸ List.subset_append_left _ _
  refine ⟨h.accounts.step a, List.Subset.trans h.submitted hsub, fun hpast => ?_⟩
  by_cases hs : s.stop.pastWait = true
  · exact List.Subset.trans (h.removed hs) hrem
  · have hzero := workingJobs_of_passes a (by simpa using hs) hpast
    exact fun j hj => hrem (h.accounts.removed_of_zero hzero (h.submitted hj))

/-- In any run: the jobs are those of the calls of `submit`, each with its number, and they are
removed and counted off by the steps that end a removal and that count one off; those not counted
off are each in one place, and the count is their number; `stop` gets past its wait at a moment when
it is zero, with every job done that has been submitted by then, and those submitted before `stop`
was called are done in every state from there on; and while `stop` sleeps with the count zero, a
thread is on its way to notify it. -/
theorem jobs_counted (threads : ℕ) (as : List Action) :
    let s := (run step (start threads) as).2
    s.submitted.map Job.file = as.flatMap Action.submits
      ∧ s.submitted.map Job.ticket = List.range s.submitted.length
      ∧ s.removed
        = incoming (fun s a => ((s.ending a).map Prod.fst).toList) step (start threads) as
      ∧ s.decremented = incoming (fun s a => (s.counting a).toList) step (start threads) as
      ∧ (s.pending ++ s.decremented).Perm s.submitted
      ∧ s.workingJobs = s.unfinished.length
      ∧ (∀ a, s.stop.pastWait = false → (step s a).2.stop.pastWait →
          s.workingJobs = 0 ∧ ∀ j ∈ s.submitted, j ∈ s.removed)
      ∧ (∀ more, s.stop = .notCalled → (run step s more).2.stop.pastWait →
          ∀ j ∈ s.submitted, j ∈ (run step s more).2.removed)
      ∧ (s.stop = .asleep → s.workingJobs = 0 → ∃ p ∈ s.workers, p.aboutToNotify) := by
  intro s
  have haccounts : Accounts s :=
    run_invariant (fun _ a h _ => h.step a) _ as (start_accounts threads) (RunOk.top _ as)
  have hsync : Sync s :=
    run_invariant (fun _ a h _ => h.step a) _ as (start_sync threads) (RunOk.top _ as)
  refine ⟨run_submitted _ as, haccounts.tickets, run_removed _ as, run_decremented _ as,
    haccounts.jobs, haccounts.workingJobs_eq, fun a hs hpast => ?_, fun more hs hpast => ?_,
    fun hs hz => hsync.awake (by simp [hs, StopPhase.sleeping]) hz⟩
  · have hzero := workingJobs_of_passes a hs hpast
    exact ⟨hzero, fun j hj => haccounts.removed_of_zero hzero hj⟩
  · have hstart : Awaited s.submitted s :=
      ⟨haccounts, List.Subset.refl _, fun h => by simp [hs, StopPhase.pastWait] at h⟩
    have hend : Awaited s.submitted (run step s more).2 :=
      run_invariant (fun _ a h _ => h.step a) s more hstart (RunOk.top s more)
    exact fun j hj => hend.removed hpast hj

end AsyncDeleter

end XCache
