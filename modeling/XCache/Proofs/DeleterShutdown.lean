import XCache.Lib.Progress
import XCache.Proofs.DeleterLifecycle
import XCache.Proofs.AsyncDeleter

/-!
# Whether the deleter can stop

`stop` keeps `cv_lock` from the moment it finds `working_jobs` zero until it has joined the threads,
and a handler that has counted off one of the last two jobs locks `cv_lock` to notify. A handler
that comes to its lock too late waits for `stop`, which waits for its thread (`Stuck`). `Unaided`
steps, which leave out the wakeups `cv.wait` has of itself, bring `stop` to its end from any other
state: there is always a thread that can go on (`stop_advances`, `handler_advances`), and what is
left to do (`State.left`) gets less.
-/

namespace XCache

namespace AsyncDeleter

variable {s : State} {i : ℕ} {p q : Phase}

/-- `stop` is called when the calls of `submit` have returned, and no other follows. -/
def Quiet (s : State) : Action → Prop
  | .submit _ => s.stop = .notCalled
  | .stop => s.stop = .notCalled → s.submitting = []
  | .post _ | .work .. | .runOut | .wake => True

/-- Nobody calls `submit` any more, and nobody wakes up without a notification. -/
def Unaided (s : State) : Action → Prop
  | .submit _ | .wake => False
  | .stop => s.stop = .notCalled → s.submitting = []
  | .post _ | .work .. | .runOut => True

/-- `stop` has `cv_lock`, and gives it up only if it finds a job to wait for. -/
def StopPhase.keeps : StopPhase → Bool
  | .checking | .testing | .passed | .joining => true
  | .notCalled | .locking | .blocking | .asleep | .woken | .returned => false

/-- `stop` keeps `cv_lock` to its end, and a handler is yet to lock it. -/
def Stuck (s : State) : Prop :=
  s.workingJobs = 0 ∧ s.stop.keeps = true ∧ .locking ∈ s.workers

/-! ## What is left to do -/

def Phase.left : Phase → ℕ
  | .removing _ => 10
  | .removed _ => 9
  | .locking => 8
  | .notifying => 7  -- it may wake `stop` up
  | .unlocking => 2
  | .idle => 1
  | .exited => 0

def StopPhase.left : StopPhase → ℕ
  | .notCalled => 8
  | .locking => 7
  | .checking => 6
  | .woken => 5
  | .testing => 4
  | .blocking => 3
  | .asleep | .passed => 2
  | .joining => 1
  | .returned => 0

def State.left (s : State) : ℕ :=
  11 * s.submitting.length + 10 * s.ioQueue.length + (s.workers.map Phase.left).sum + s.stop.left
    + (!s.ioStopped).toNat

/-! ## Who has the lock -/

/-- Who is down as the holder of `cv_lock` is at a place where it holds it. -/
structure HeldBy (lock : Option Holder) (workers : List Phase) (stop : StopPhase) : Prop where
  worker : ∀ i, lock = some (.worker i) → ∃ p, workers[i]? = some p ∧ p.holds
  stop : lock = some .stop → stop.holds

namespace HeldBy

variable {lock : Option Holder} {ws : List Phase} {stop stop' : StopPhase}

theorem free : HeldBy none ws stop := ⟨by simp, by simp⟩

theorem moved (h : HeldBy lock ws stop) (hi : ws[i]? = some p) (hpq : p.holds → q.holds) :
    HeldBy lock (ws.set i q) stop := by
  refine ⟨fun k hk => ?_, h.stop⟩
  obtain ⟨r, hr, hholds⟩ := h.worker k hk
  by_cases hik : i = k
  · subst hik
    obtain rfl : p = r := Option.some.inj (hi.symm.trans hr)
    exact ⟨q, List.getElem?_set_self (List.getElem?_eq_some_iff.1 hi).1, hpq hholds⟩
  · exact ⟨r, by rwa [List.getElem?_set_ne hik], hholds⟩

theorem stopMoved (h : HeldBy lock ws stop) (hs : stop.holds → stop'.holds) :
    HeldBy lock ws stop' :=
  ⟨h.worker, fun hl => hs (h.stop hl)⟩

theorem byWorker (hi : ws[i]? = some p) (hq : q.holds) :
    HeldBy (some (.worker i)) (ws.set i q) stop := by
  refine ⟨fun k hk => ?_, by simp⟩
  obtain rfl : i = k := by simpa using hk
  exact ⟨q, List.getElem?_set_self (List.getElem?_eq_some_iff.1 hi).1, hq⟩

theorem byStop (hs : stop.holds) : HeldBy (some .stop) ws stop := ⟨by simp, fun _ => hs⟩

end HeldBy

theorem heldBy_work (h : HeldBy s.cvLock s.workers s.stop) (i k : ℕ) (r : Removal) :
    HeldBy (s.work i k r).cvLock (s.work i k r).workers (s.work i k r).stop := by
  unfold State.work
  split
  · rename_i hi
    split
    · exact h.moved hi (by simp [Phase.holds])
    · unfold State.take
      split
      · exact h.moved hi (by simp [Phase.holds])
      · exact h
  · exact h.moved (by assumption) (by simp [Phase.holds])
  · exact h.moved (by assumption) (by simp [Phase.holds])
  · unfold State.lock
    split
    · exact .byWorker (by assumption) rfl
    · exact h
  · rename_i hi
    have hmoved : HeldBy s.cvLock (s.workers.set i .unlocking) s.stop := h.moved hi fun _ => rfl
    refine hmoved.stopMoved fun hs => ?_
    dsimp only [State.notifyAll]
    split
    · rename_i hsleep
      simp [hsleep, StopPhase.holds] at hs
    · exact hs
  · exact .free
  · exact h
  · exact h

theorem heldBy_stopStep (h : HeldBy s.cvLock s.workers s.stop) :
    HeldBy s.stopStep.cvLock s.stopStep.workers s.stopStep.stop := by
  unfold State.stopStep
  split <;> rename_i hs
  · exact h.stopMoved (by simp [hs, StopPhase.holds])
  · split
    · exact .byStop rfl
    · exact h
  · split
    · exact h.stopMoved fun _ => rfl
    · exact h.stopMoved fun _ => rfl
  · split
    · exact h.stopMoved fun _ => rfl
    · exact h.stopMoved fun _ => rfl
  · exact .free
  · exact h
  · split
    · exact .byStop rfl
    · exact h
  · exact h.stopMoved fun _ => rfl
  · split
    · exact .free
    · exact h
  · exact h

/-! ## The invariant -/

structure Closing (threads : ℕ) (s : State) : Prop where
  accounts : Accounts s
  sync : Sync s
  heldBy : HeldBy s.cvLock s.workers s.stop
  length : s.workers.length = threads
  called : s.stop ≠ .notCalled → s.submitting = []
  guarded : s.stop = .notCalled → s.guarded = true
  running : s.stop = .notCalled → s.ioStopped = false
  /-- The context is stopped when there is nothing left for it. -/
  finished : s.ioStopped = true → s.workingJobs = 0
  inside : s.ioStopped = false → ∀ p ∈ s.workers, p ≠ .exited
  joining : s.stop = .joining → s.ioStopped = true
  past : s.stop.pastWait → s.workingJobs = 0

theorem start_closing (threads : ℕ) : Closing threads (start threads) where
  accounts := start_accounts threads
  sync := start_sync threads
  heldBy := .free
  length := List.length_replicate
  called h := absurd rfl h
  guarded _ := rfl
  running _ := rfl
  finished h := by simp [start] at h
  inside _ p hp := by simp [List.eq_of_mem_replicate hp]
  joining h := by simp [start] at h
  past h := by simp [start, StopPhase.pastWait] at h

/-- What a thread of the pool leaves as it is. -/
theorem work_keeps (s : State) (i k : ℕ) (r : Removal) :
    (s.work i k r).submitting = s.submitting ∧ (s.work i k r).workingJobs ≤ s.workingJobs
      ∧ (s.work i k r).workers.length = s.workers.length
      ∧ ((s.work i k r).stop = s.stop ∨ s.stop = .asleep ∧ (s.work i k r).stop = .woken) := by
  unfold State.work State.take State.lock
  split
  · split
    · exact ⟨rfl, le_rfl, List.length_set, .inl rfl⟩
    · split
      · exact ⟨rfl, le_rfl, List.length_set, .inl rfl⟩
      · exact ⟨rfl, le_rfl, rfl, .inl rfl⟩
  · exact ⟨rfl, le_rfl, List.length_set, .inl rfl⟩
  · exact ⟨rfl, Nat.sub_le _ _, List.length_set, .inl rfl⟩
  · split
    · exact ⟨rfl, le_rfl, List.length_set, .inl rfl⟩
    · exact ⟨rfl, le_rfl, rfl, .inl rfl⟩
  · refine ⟨rfl, le_rfl, List.length_set, ?_⟩
    by_cases hs : s.stop = .asleep
    · exact .inr ⟨hs, if_pos hs⟩
    · exact .inl (if_neg hs)
  · exact ⟨rfl, le_rfl, List.length_set, .inl rfl⟩
  · exact ⟨rfl, le_rfl, rfl, .inl rfl⟩
  · exact ⟨rfl, le_rfl, rfl, .inl rfl⟩

/-- What a step of `stop` leaves as it is, and where it stops the context. -/
theorem stopStep_keeps (s : State) :
    s.stopStep.submitting = s.submitting ∧ s.stopStep.workingJobs = s.workingJobs
      ∧ s.stopStep.workers = s.workers ∧ s.stopStep.stop ≠ .notCalled
      ∧ (s.stopStep.ioStopped = true → s.ioStopped = true ∨ s.stop = .passed)
      ∧ (s.ioStopped = true → s.stopStep.ioStopped = true)
      ∧ (s.stopStep.stop = .joining → s.stop = .joining ∨ s.stopStep.ioStopped = true) := by
  unfold State.stopStep
  split <;> (try split) <;> simp_all

namespace Closing

variable {threads : ℕ}

theorem work (h : Closing threads s) (i k : ℕ) (r : Removal) : Closing threads (s.work i k r) := by
  obtain ⟨hsub, hjobs, hlen, hstop⟩ := work_keeps s i k r
  obtain ⟨hio, hguard, hin⟩ := Lifecycle.work_frame s i k r
  -- where the thread wakes `stop` up, that is in its wait before and after
  have hphase : ∀ P : StopPhase → Prop, (P .woken → P .asleep) →
      P (s.work i k r).stop → P s.stop := by
    intro P hP hp
    rcases hstop with hstop | ⟨hsleep, hstop⟩
    · rwa [hstop] at hp
    · rw [hstop] at hp
      rw [hsleep]
      exact hP hp
  refine ⟨h.accounts.work i k r, h.sync.work i k r, heldBy_work h.heldBy i k r, hlen.trans h.length,
    fun hs => ?_, fun hs => ?_, fun hs => ?_, fun hs => ?_, fun hs => ?_, fun hs => ?_,
    fun hs => ?_⟩
  · exact hsub.trans (h.called (hphase (· ≠ .notCalled) (by simp) hs))
  · exact hguard.trans (h.guarded (hphase (· = .notCalled) (by simp) hs))
  · exact hio.trans (h.running (hphase (· = .notCalled) (by simp) hs))
  · exact Nat.le_zero.1 (hjobs.trans (h.finished (hio ▸ hs)).le)
  · exact hin (hio ▸ hs) (h.inside (hio ▸ hs))
  · exact hio.trans (h.joining (hphase (· = .joining) (by simp) hs))
  · exact Nat.le_zero.1 (hjobs.trans (h.past
      (hphase (fun st => st.pastWait) (by simp [StopPhase.pastWait]) hs)).le)

theorem stopStep (h : Closing threads s) (hquiet : s.stop = .notCalled → s.submitting = []) :
    Closing threads s.stopStep := by
  obtain ⟨hsub, hjobs, hworkers, hstop, hio, hstays, hjoin⟩ := stopStep_keeps s
  refine ⟨h.accounts.step .stop, h.sync.stopStep, heldBy_stopStep h.heldBy,
    (congrArg List.length hworkers).trans h.length, fun _ => ?_, fun hs => absurd hs hstop,
    fun hs => absurd hs hstop, fun hs => ?_, fun hs => ?_, fun hs => ?_, fun hs => ?_⟩
  · rw [hsub]
    by_cases hs : s.stop = .notCalled
    · exact hquiet hs
    · exact h.called hs
  · rw [hjobs]
    rcases hio hs with hs | hs
    · exact h.finished hs
    · exact h.past (by simp [hs, StopPhase.pastWait])
  · rw [hworkers]
    refine h.inside ?_
    by_contra hne
    simp [hstays (by simpa using hne)] at hs
  · rcases hjoin hs with hs | hs
    · exact hstays (h.joining hs)
    · exact hs
  · rw [hjobs]
    by_cases hpast : s.stop.pastWait = true
    · exact h.past hpast
    · exact pastWait_stopStep (by simpa using hpast) hs

theorem submit (h : Closing threads s) (file : List UInt8) (hs : s.stop = .notCalled) :
    Closing threads (s.submit file) where
  accounts := h.accounts.step (.submit file)
  sync := h.sync.step (.submit file)
  heldBy := h.heldBy
  length := h.length
  called hne := absurd hs hne
  guarded := h.guarded
  running := h.running
  finished hio := by simp [State.submit, h.running hs] at hio
  inside := h.inside
  joining := h.joining
  past hpast := by simp [State.submit, hs, StopPhase.pastWait] at hpast

theorem post (h : Closing threads s) (k : ℕ) : Closing threads (s.post k) := by
  have hacc : Accounts (s.post k) := h.accounts.step (.post k)
  have hsync : Sync (s.post k) := h.sync.step (.post k)
  unfold State.post at hacc hsync ⊢
  rcases hk : s.submitting[k]? with _ | j
  · exact h
  · simp only [hk] at hacc hsync
    refine ⟨hacc, hsync, h.heldBy, h.length, fun hne => ?_, h.guarded, h.running, h.finished,
      h.inside, h.joining, h.past⟩
    simp [h.called hne] at hk

/-- When the context runs out of work, there is nothing left. -/
theorem runOut (h : Closing threads s) : Closing threads s.runOut := by
  have hacc : Accounts s.runOut := h.accounts.step .runOut
  have hsync : Sync s.runOut := h.sync.step .runOut
  unfold State.runOut at hacc hsync ⊢
  split_ifs at hacc hsync ⊢ with hout
  · simp only [Bool.and_eq_true, Bool.not_eq_true', List.isEmpty_iff, List.all_eq_true,
      Bool.or_eq_true, decide_eq_true_eq] at hout
    have hcalled : s.stop ≠ .notCalled := fun hs => by simp [h.guarded hs] at hout
    have hheld : held Phase.job s.workers = [] := by
      refine List.filterMap_eq_nil_iff.2 fun p hp => ?_
      rcases hout.2 p hp with rfl | rfl <;> rfl
    have hzero : s.workingJobs = 0 := by
      rw [h.accounts.counted, State.pending, h.called hcalled, hout.1.2, hheld]
      rfl
    exact ⟨hacc, hsync, h.heldBy, h.length, h.called, h.guarded, fun hs => absurd hs hcalled,
      fun _ => hzero, by simp, fun _ => rfl, h.past⟩
  · exact h

theorem wake (h : Closing threads s) : Closing threads s.wake := by
  have hacc : Accounts s.wake := h.accounts.step .wake
  have hsync : Sync s.wake := h.sync.step .wake
  unfold State.wake at hacc hsync ⊢
  split_ifs at hacc hsync ⊢ with hs
  · refine ⟨hacc, hsync, h.heldBy.stopMoved ?_, h.length, fun _ => h.called (by simp [hs]), by simp,
      by simp, h.finished, h.inside, by simp, by simp [StopPhase.pastWait]⟩
    simp [hs, StopPhase.holds]
  · exact h

theorem step (h : Closing threads s) (a : Action) (hquiet : Quiet s a) :
    Closing threads (step s a).2 := by
  cases a with
  | submit file => exact h.submit file hquiet
  | post k => exact h.post k
  | work i k r => exact h.work i k r
  | runOut => exact h.runOut
  | stop => exact h.stopStep hquiet
  | wake => exact h.wake

/-- While nothing is counted, nothing is on its way. -/
theorem pending_nil (h : Closing threads s) (hzero : s.workingJobs = 0) : s.pending = [] :=
  List.length_eq_zero_iff.1 (h.accounts.counted.symm.trans hzero)

theorem job_none (h : Closing threads s) (hzero : s.workingJobs = 0) {p : Phase}
    (hp : p ∈ s.workers) : p.job = none := by
  have hnil := h.pending_nil hzero
  simp only [State.pending, List.append_eq_nil_iff] at hnil
  exact List.filterMap_eq_nil_iff.1 hnil.2 p hp

end Closing

/-! ## Going on -/

/-- A step of a thread leaves `stop` with a lock it keeps only where it had it. -/
theorem not_stuck_work (h : s.stop.keeps = false) (i k : ℕ) (r : Removal) :
    ¬ Stuck (s.work i k r) := by
  obtain ⟨-, -, -, hstop | ⟨-, hstop⟩⟩ := work_keeps s i k r
  · rintro ⟨-, hkeeps, -⟩
    rw [hstop, h] at hkeeps
    simp at hkeeps
  · rintro ⟨-, hkeeps, -⟩
    rw [hstop] at hkeeps
    simp [StopPhase.keeps] at hkeeps

theorem not_stuck_post (h : s.stop = .notCalled) (k : ℕ) : ¬ Stuck (s.post k) := by
  have hstop : (s.post k).stop = s.stop := by
    unfold State.post
    split <;> rfl
  rintro ⟨-, hkeeps, -⟩
  rw [hstop, h] at hkeeps
  simp [StopPhase.keeps] at hkeeps

/-- A thread that moves on to a phase with less left to do. -/
theorem left_moved (hi : s.workers[i]? = some p) (hpq : q.left < p.left) :
    (s.moved i q).left < s.left := by
  have hsum := sum_move (q := q) Phase.left hi
  simp only [State.left, State.moved]
  omega

/-- The thread is on its way, and nothing holds it up. -/
def State.Going (s : State) : Phase → Prop
  | .removing _ | .removed _ | .notifying | .unlocking => True
  | .locking => s.cvLock = none
  | .idle | .exited => False

theorem left_going (hi : s.workers[i]? = some p) (hp : s.Going p) (k : ℕ) (r : Removal) :
    (s.work i k r).left < s.left := by
  unfold State.work
  rcases p with _ | j | j | _ | _ | _ | _ <;> simp only [State.Going] at hp <;> simp only [hi]
  · exact left_moved (q := .removed j) hi (by simp [Phase.left])
  · refine left_moved (q := if s.workingJobs ≤ 2 then .locking else .idle) hi ?_
    split <;> simp [Phase.left]
  · simp only [State.lock, if_pos hp]
    exact left_moved (q := .notifying) hi (by simp [Phase.left])
  · have hsum := sum_move (q := Phase.unlocking) Phase.left hi
    simp only [State.notifyAll, State.left, State.moved, Phase.left] at hsum ⊢
    split
    · rename_i hs
      simp only [hs, StopPhase.left]
      omega
    · omega
  · exact left_moved (q := .idle) hi (by simp [Phase.left])

/-- A handler in the queue is taken. -/
theorem left_take (hi : s.workers[i]? = some .idle) (hrun : s.ioStopped = false) {k : ℕ}
    (hk : k < s.ioQueue.length) (r : Removal) : (s.work i k r).left < s.left := by
  have hsum := sum_move (q := Phase.removing s.ioQueue[k]) Phase.left hi
  simp only [State.work, hi, hrun, Bool.false_eq_true, ↓reduceIte, State.take,
    List.getElem?_eq_getElem hk, State.left, State.moved, List.length_eraseIdx_of_lt hk,
    Phase.left] at hsum ⊢
  omega

theorem left_post {k : ℕ} (hk : k < s.submitting.length) : (s.post k).left < s.left := by
  simp only [State.post, List.getElem?_eq_getElem hk, State.left, List.length_eraseIdx_of_lt hk,
    List.length_append, List.length_singleton]
  omega

/-- `stop` goes on wherever it is not waiting. -/
theorem left_stopStep (hlock : s.stop = .locking ∨ s.stop = .woken → s.cvLock = none)
    (hsleep : s.stop ≠ .asleep) (hjoin : s.stop = .joining → ∀ p ∈ s.workers, p = .exited)
    (hend : s.stop ≠ .returned) : s.stopStep.left < s.left := by
  have hall : s.stop = .joining → (s.workers.all fun p => p = .exited) = true := fun hs =>
    List.all_eq_true.2 fun p hp => by simpa using hjoin hs p hp
  rcases hs : s.stop <;> simp_all only [State.stopStep, State.left, StopPhase.left, reduceCtorEq,
    ne_eq, not_true_eq_false, not_false_eq_true, ↓reduceIte, or_true, or_false, forall_const]
  case checking | testing => split <;> simp
  case passed =>
    simp only [Bool.not_true, Bool.toNat_false]
    omega
  all_goals omega

/-- Every step that changes anything leaves less to do, whatever thread it is of, unless it is a new
call of `submit` or a wakeup nobody asked for. -/
theorem left_step {a : Action} (ha : Unaided s a) (h : (step s a).2 ≠ s) :
    (step s a).2.left < s.left := by
  cases a with
  | submit file | wake => exact absurd ha id
  | post k =>
    refine left_post (lt_of_not_ge fun hk => h ?_)
    simp only [step, State.post, List.getElem?_eq_none hk]
  | work i k r =>
    rcases hi : s.workers[i]? with _ | p
    · exact absurd (by simp only [step, State.work, hi]) h
    by_cases hp : s.Going p
    · exact left_going hi hp k r
    rcases p <;> simp only [State.Going, not_true_eq_false] at hp
    case idle =>
      rcases hrun : s.ioStopped
      · refine left_take hi hrun (lt_of_not_ge fun hk => h ?_) r
        simp only [step, State.work, hi, hrun, Bool.false_eq_true, ↓reduceIte, State.take,
          List.getElem?_eq_none hk]
      · simp only [step, State.work, hi, hrun, ↓reduceIte]
        exact left_moved hi (by simp [Phase.left])
    case locking => exact absurd (by simp only [step, State.work, hi, State.lock, if_neg hp]) h
    case exited => exact absurd (by simp only [step, State.work, hi]) h
  | runOut =>
    simp only [step, State.runOut] at h ⊢
    split_ifs at h ⊢
    · rcases hrun : s.ioStopped
      · simp [State.left, hrun]
      · exact absurd (by rw [← hrun]) h
    · exact absurd rfl h
  | stop =>
    refine left_stopStep (fun hs => ?_) (fun hs => h ?_) (fun hs => ?_) fun hs => h ?_
    · by_contra hlock
      rcases hs with hs | hs <;> exact h (by simp only [step, State.stopStep, hs, if_neg hlock])
    · simp only [step, State.stopStep, hs]
    · by_contra hall
      refine h ?_
      simp only [step, State.stopStep, hs, List.all_eq_true, decide_eq_true_eq, if_neg hall]
    · simp only [step, State.stopStep, hs]

/-- A step of `stop` is one that leaves it stuck only if it takes the lock a handler waits for. -/
theorem not_stuck_stopStep (h : ¬ Stuck s)
    (hlocking : s.stop = .locking ∨ s.stop = .woken → .locking ∉ s.workers) :
    ¬ Stuck s.stopStep := by
  rintro ⟨hzero, hkeeps, hmem⟩
  obtain ⟨-, hjobs, hworkers, -⟩ := stopStep_keeps s
  rw [hjobs] at hzero
  rw [hworkers] at hmem
  by_cases hbefore : s.stop.keeps = true
  · exact h ⟨hzero, hbefore, hmem⟩
  · rcases hs : s.stop <;> simp_all [State.stopStep, StopPhase.keeps]

/-- The next step of `stop` where it is in nobody's way. -/
theorem stop_advances (hstuck : ¬ Stuck s) (hend : s.stop ≠ .returned)
    (hcall : s.stop = .notCalled → s.submitting = []) (hsleep : s.stop ≠ .asleep)
    (hwait : s.stop = .locking ∨ s.stop = .woken → s.cvLock = none ∧ .locking ∉ s.workers)
    (hjoin : s.stop = .joining → ∀ p ∈ s.workers, p = .exited) :
    ∃ a, Unaided s a ∧ ¬ Stuck (step s a).2
      ∧ (step s a).2.left < s.left :=
  ⟨.stop, hcall, not_stuck_stopStep hstuck fun hs => (hwait hs).2,
    left_stopStep (fun hs => (hwait hs).1) hsleep hjoin hend⟩

namespace Closing

variable {threads : ℕ}

/-- While `stop` does not keep the lock, a thread that is on its way can go on. -/
theorem handler_advances (h : Closing threads s) (hkeeps : s.stop.keeps = false)
    (hblock : s.stop ≠ .blocking) (hp : p ∈ s.workers) (hidle : p ≠ .idle) (hexit : p ≠ .exited) :
    ∃ i, (s.work i 0 .thrown).left < s.left := by
  obtain ⟨i, hi⟩ := List.mem_iff_getElem?.1 hp
  by_cases hgoing : s.Going p
  · exact ⟨i, left_going hi hgoing 0 _⟩
  -- it waits for `cv_lock`, which another thread has: that one can go on
  · obtain rfl : p = .locking := by rcases p <;> simp_all [State.Going]
    rcases hlock : s.cvLock with _ | holder | k
    · exact absurd hlock hgoing
    · have hholds := h.heldBy.stop hlock
      rcases hs : s.stop <;> simp_all [StopPhase.holds, StopPhase.keeps]
    · obtain ⟨q, hk, hholds⟩ := h.heldBy.worker k hlock
      refine ⟨k, left_going hk ?_ 0 _⟩
      rcases q <;> simp_all [State.Going, Phase.holds]

/-- Once `stop` joins the threads, with none of them held up by its lock, all that is left to them
is to leave the context. -/
theorem joiner_advances (h : Closing threads s) (hs : s.stop = .joining) (hstuck : ¬ Stuck s)
    (hall : ¬ ∀ p ∈ s.workers, p = .exited) :
    ∃ a, Unaided s a ∧ ¬ Stuck (AsyncDeleter.step s a).2
      ∧ (AsyncDeleter.step s a).2.left < s.left := by
  have hzero := h.past (by simp [hs, StopPhase.pastWait])
  obtain ⟨p, hp, hexit⟩ := not_forall₂.1 hall
  obtain ⟨i, hi⟩ := List.mem_iff_getElem?.1 hp
  have hlock := h.sync.stopLock (by simp [hs, StopPhase.holds])
  have hjob := h.job_none hzero hp
  have hfree : p.holds = false := by
    by_contra hholds
    have := h.sync.workerLock i p hi (by simpa using hholds)
    simp [hlock] at this
  have hlocking : .locking ∉ s.workers := fun hmem =>
    hstuck ⟨hzero, by simp [hs, StopPhase.keeps], hmem⟩
  obtain rfl : p = .idle := by
    have : p ≠ .locking := fun hp' => hlocking (hp' ▸ hp)
    rcases p <;> simp_all [Phase.job, Phase.holds]
  have hwork : s.work i 0 .thrown = s.moved i .exited := by
    simp only [State.work, hi, h.joining hs, ↓reduceIte]
  refine ⟨.work i 0 .thrown, trivial, ?_, ?_⟩
  · rintro ⟨-, -, hmem⟩
    simp only [AsyncDeleter.step, hwork] at hmem
    rcases List.mem_or_eq_of_mem_set hmem with hmem | hmem
    · exact hlocking hmem
    · simp at hmem
  · simp only [AsyncDeleter.step, hwork]
    exact left_moved hi (by simp [Phase.left])

/-- With every thread idle and none of `stop`'s business in the way, a queued handler is taken. -/
theorem queue_advances (h : Closing threads s) (hpos : 0 < threads) (hqueue : s.ioQueue ≠ [])
    (hidle : ∀ p ∈ s.workers, p = .idle ∨ p = .exited) :
    ∃ i, (s.work i 0 .thrown).left < s.left := by
  have hrun : s.ioStopped = false := by
    by_contra hio
    have hnil := h.pending_nil (h.finished (by simpa using hio))
    simp only [State.pending, List.append_eq_nil_iff] at hnil
    exact hqueue hnil.1.2
  have hlen : 0 < s.workers.length := h.length.symm ▸ hpos
  have h0 : s.workers[0]? = some .idle := by
    rw [List.getElem?_eq_getElem hlen, Option.some.injEq]
    have hmem := List.getElem_mem hlen
    exact (hidle _ hmem).resolve_right (h.inside hrun _ hmem)
  exact ⟨0, left_take h0 hrun (List.length_pos_of_ne_nil hqueue) _⟩

/-- When the threads have nothing to do, `stop` does not sleep, and the lock is free. -/
theorem stop_free (h : Closing threads s) (hcalled : s.stop ≠ .notCalled)
    (hqueue : s.ioQueue = []) (hidle : ∀ p ∈ s.workers, p = .idle ∨ p = .exited) :
    s.stop ≠ .asleep ∧ (s.stop.holds = false → s.cvLock = none) := by
  have hheld : held Phase.job s.workers = [] := by
    refine List.filterMap_eq_nil_iff.2 fun p hp => ?_
    rcases hidle p hp with rfl | rfl <;> rfl
  have hzero : s.workingJobs = 0 := by
    rw [h.accounts.counted, State.pending, h.called hcalled, hqueue, hheld]
    rfl
  constructor
  · intro hs
    obtain ⟨p, hp, hnotify⟩ := h.sync.awake (by simp [hs, StopPhase.sleeping]) hzero
    rcases hidle p hp with rfl | rfl <;> simp [Phase.aboutToNotify] at hnotify
  · intro hs
    rcases hlock : s.cvLock with _ | holder | k
    · rfl
    · simp [h.heldBy.stop hlock] at hs
    · obtain ⟨q, hk, hholds⟩ := h.heldBy.worker k hlock
      rcases hidle q (List.mem_of_getElem? hk) with rfl | rfl <;> simp [Phase.holds] at hholds

/-- From a state that is not stuck, a step that nobody helps along brings `stop` closer to its end,
to another that is not. -/
theorem advances (h : Closing threads s) (hpos : 0 < threads) (hstuck : ¬ Stuck s)
    (hend : s.stop ≠ .returned) :
    ∃ a, Unaided s a ∧ ¬ Stuck (AsyncDeleter.step s a).2
      ∧ (AsyncDeleter.step s a).2.left < s.left := by
  have hworker : s.stop.keeps = false → (∃ i, (s.work i 0 .thrown).left < s.left) →
      ∃ a, Unaided s a ∧ ¬ Stuck (AsyncDeleter.step s a).2
        ∧ (AsyncDeleter.step s a).2.left < s.left := by
    rintro hkeeps ⟨i, hlt⟩
    exact ⟨.work i 0 .thrown, trivial, not_stuck_work hkeeps i 0 _, hlt⟩
  rcases hs : s.stop
  case notCalled =>
    by_cases hsub : s.submitting = []
    · exact stop_advances hstuck hend (fun _ => hsub) (by simp [hs]) (by simp [hs]) (by simp [hs])
    · exact ⟨.post 0, trivial, not_stuck_post hs 0, left_post (List.length_pos_of_ne_nil hsub)⟩
  case checking | testing | passed | blocking =>
    exact stop_advances hstuck hend (by simp [hs]) (by simp [hs]) (by simp [hs]) (by simp [hs])
  case joining =>
    by_cases hall : ∀ p ∈ s.workers, p = .exited
    · exact stop_advances hstuck hend (by simp [hs]) (by simp [hs]) (by simp [hs]) fun _ => hall
    · exact h.joiner_advances hs hstuck hall
  case returned => exact absurd hs hend
  case locking | woken | asleep =>
    by_cases hidle : ∀ p ∈ s.workers, p = .idle ∨ p = .exited
    · by_cases hqueue : s.ioQueue = []
      · obtain ⟨hsleep, hfree⟩ := h.stop_free (by simp [hs]) hqueue hidle
        have hlocking : .locking ∉ s.workers := fun hmem => by simpa using hidle _ hmem
        exact stop_advances hstuck hend (by simp [hs]) hsleep
          (fun _ => ⟨hfree (by simp [hs, StopPhase.holds]), hlocking⟩) (by simp [hs])
      · exact hworker (by simp [hs, StopPhase.keeps]) (h.queue_advances hpos hqueue hidle)
    · obtain ⟨p, hp, hne⟩ := not_forall₂.1 hidle
      obtain ⟨hidle, hexit⟩ := not_or.1 hne
      exact hworker (by simp [hs, StopPhase.keeps])
        (h.handler_advances (by simp [hs, StopPhase.keeps]) (by simp [hs]) hp hidle hexit)

end Closing

/-! ## Stuck for good -/

/-- While `stop` has the lock, a handler that is to lock it stays where it is. -/
theorem locking_stays (h : .locking ∈ s.workers) (hlock : s.cvLock = some .stop) (i k : ℕ)
    (r : Removal) : .locking ∈ (s.work i k r).workers := by
  have hmove : ∀ p q : Phase, s.workers[i]? = some p → p ≠ .locking →
      .locking ∈ s.workers.set i q := by
    intro p q hi hp
    obtain ⟨k, hk⟩ := List.mem_iff_getElem?.1 h
    have hik : i ≠ k := by
      rintro rfl
      exact hp (Option.some.inj (hi.symm.trans hk))
    exact List.mem_iff_getElem?.2 ⟨k, by rwa [List.getElem?_set_ne hik]⟩
  unfold State.work State.take State.lock
  split
  · rename_i hi
    split
    · exact hmove _ _ hi (by simp)
    · split
      · exact hmove _ _ hi (by simp)
      · exact h
  · exact hmove _ _ (by assumption) (by simp)
  · exact hmove _ _ (by assumption) (by simp)
  · simpa [hlock] using h
  · exact hmove _ _ (by assumption) (by simp)
  · exact hmove _ _ (by assumption) (by simp)
  · exact h
  · exact h

theorem keeps_stopStep (hzero : s.workingJobs = 0) (h : s.stop.keeps = true)
    (hlocking : .locking ∈ s.workers) : s.stopStep.stop.keeps = true := by
  have hall : (s.workers.all fun p => p = .exited) = false :=
    List.all_eq_false.2 ⟨_, hlocking, by simp⟩
  rcases hs : s.stop <;> simp only [hs, StopPhase.keeps, Bool.false_eq_true] at h <;>
    simp [State.stopStep, hs, hzero, hall, StopPhase.keeps]

theorem stuck_step {threads : ℕ} (h : Closing threads s) (hstuck : Stuck s) (a : Action)
    (hquiet : Quiet s a) : Stuck (step s a).2 := by
  obtain ⟨hzero, hkeeps, hmem⟩ := hstuck
  have hlock : s.cvLock = some .stop := by
    refine h.sync.stopLock ?_
    rcases hs : s.stop <;> simp_all [StopPhase.keeps, StopPhase.holds]
  cases a with
  | submit file =>
    have hs : s.stop = .notCalled := hquiet
    simp [hs, StopPhase.keeps] at hkeeps
  | post k =>
    simp only [step, State.post]
    split <;> exact ⟨hzero, hkeeps, hmem⟩
  | work i k r =>
    obtain ⟨-, hjobs, -, hstop | ⟨hsleep, -⟩⟩ := work_keeps s i k r
    · exact ⟨Nat.le_zero.1 (hjobs.trans hzero.le), hstop.symm ▸ hkeeps,
        locking_stays hmem hlock i k r⟩
    · simp [hsleep, StopPhase.keeps] at hkeeps
  | runOut =>
    simp only [step, State.runOut]
    split <;> exact ⟨hzero, hkeeps, hmem⟩
  | stop =>
    obtain ⟨-, hjobs, hworkers, -⟩ := stopStep_keeps s
    exact ⟨hjobs.trans hzero, keeps_stopStep hzero hkeeps hmem, hworkers.symm ▸ hmem⟩
  | wake =>
    simp only [step, State.wake]
    split
    · rename_i hs
      simp [hs, StopPhase.keeps] at hkeeps
    · exact ⟨hzero, hkeeps, hmem⟩

theorem stuck_trap (threads : ℕ) :
    Trap step Quiet (Closing threads) Stuck (fun s => s.stop = .returned) where
  keeps _ a h hquiet := h.step a hquiet
  stays _ a h hstuck hquiet := stuck_step h hstuck a hquiet
  misses _ _ hstuck hs := by simpa [hs, StopPhase.keeps] using hstuck.2.1

/-- What is left to do, by the jobs that are not counted off. -/
theorem left_le {threads : ℕ} (h : Closing threads s) :
    s.left ≤ 11 * s.workingJobs + 8 * threads + 9 := by
  have hworkers : ∀ ws : List Phase,
      (ws.map Phase.left).sum ≤ 11 * (held Phase.job ws).length + 8 * ws.length := by
    intro ws
    induction ws with
    | nil => simp
    | cons w ws ih =>
      rcases w <;> simp_all only [List.map_cons, List.sum_cons, Phase.left, held,
        List.filterMap_cons, Phase.job, List.length_cons] <;> omega
  have hstop : s.stop.left ≤ 8 := by
    rcases s.stop <;> simp [StopPhase.left]
  have hio : (!s.ioStopped).toNat ≤ 1 := Bool.toNat_le _
  have := hworkers s.workers
  have hlen := h.length
  simp only [State.left, h.accounts.counted, State.pending, List.length_append]
  omega

/-- In any run in which `stop` is called once, after the last `submit` has returned, with at least
one thread: `stop` can come to its end, without the help of a wakeup that nobody asked for, exactly
if it does not keep `cv_lock` with no job left while a handler is yet to lock it; and once it does,
nothing that can happen brings it to its end. -/
theorem stop_returns_iff (threads : ℕ) (as : List Action) (hpos : 0 < threads)
    (hquiet : RunOk step Quiet (start threads) as) :
    let s := (run step (start threads) as).2
    (LeadsTo step Unaided (fun s => s.stop = .returned) s ↔ ¬ Stuck s)
      ∧ (Stuck s → ∀ more, RunOk step Quiet s more → (run step s more).2.stop ≠ .returned) := by
  intro s
  have hs : Closing threads s :=
    run_invariant (fun _ a h hquiet => h.step a hquiet) _ as (start_closing threads) hquiet
  refine ⟨leadsTo_iff (stuck_trap threads) (fun s a h => ?_) State.left
    (fun s h hstuck hend => h.advances hpos hstuck hend) hs,
    fun hstuck more hmore => (stuck_trap threads).never hs hstuck hmore⟩
  cases a <;> simp_all [Unaided, Quiet]

/-- One thread and one job: the handler counts it off, `stop` finds nothing to wait for and joins
the thread that is about to lock what `stop` has locked. -/
theorem stop_returns_iff_one :
    let as : List Action :=
      [.submit [], .post 0, .work 0 0 .thrown, .work 0 0 .thrown, .stop, .stop,
        .work 0 0 .thrown, .stop]
    RunOk step Quiet (start 1) as
      ∧ Stuck (run step (start 1) as).2
      ∧ ¬ LeadsTo step Unaided (fun s => s.stop = .returned) (run step (start 1) as).2 := by
  intro as
  have hquiet : RunOk step Quiet (start 1) as := by
    simp [as, RunOk, Quiet, step, State.submit, State.post, State.work, State.take, State.moved,
      State.removeAll, State.decrement, State.stopStep, start]
  have hstuck : Stuck (run step (start 1) as).2 := by
    refine ⟨rfl, rfl, ?_⟩
    decide
  exact ⟨hquiet, hstuck, fun h => (stop_returns_iff 1 as Nat.one_pos hquiet).1.1 h hstuck⟩

/-- From any state of such a run on, when there is no other call of `submit` and no wakeup that
nobody asked for, the threads change the state a bounded number of times, whatever their order; and
where none of them can change it, `stop` has returned, or keeps the lock a handler waits for. -/
theorem shutdown_settles (threads : ℕ) (as : List Action) (hpos : 0 < threads)
    (hquiet : RunOk step Quiet (start threads) as) :
    let s := (run step (start threads) as).2
    (∀ more, RunOk step Unaided s more →
        changes id step s more ≤ 11 * s.workingJobs + 8 * threads + 9
          ∧ ((∀ a, Unaided (run step s more).2 a →
              (step (run step s more).2 a).2 = (run step s more).2) →
            (run step s more).2.stop = .returned ∨ Stuck (run step s more).2)) := by
  intro s more hmore
  have hs : Closing threads s :=
    run_invariant (fun _ a h hquiet => h.step a hquiet) _ as (start_closing threads) hquiet
  have hkeeps : ∀ s a, Closing threads s → Unaided s a → Closing threads (step s a).2 :=
    fun s a h ha => h.step a (by cases a <;> simp_all [Unaided, Quiet])
  have hlast : Closing threads (run step s more).2 := run_invariant hkeeps s more hs hmore
  constructor
  · have hle := changes_le (f := id) State.left hkeeps (fun s a _ ha hne => left_step ha hne)
      (fun s a _ _ heq => (congrArg State.left heq).le) s more hs hmore
    exact hle.trans (left_le hs)
  · intro hnone
    by_contra hnot
    obtain ⟨hend, hstuck⟩ := not_or.1 hnot
    obtain ⟨a, ha, -, hlt⟩ := hlast.advances hpos hstuck hend
    rw [hnone a ha] at hlt
    exact hlt.false

/-- From the start, one `stop` and one thread: it joins the thread, and nothing is left. -/
theorem shutdown_settles_one :
    let s := (run step (start 1) []).2
    let more : List Action := [.stop, .stop, .stop, .stop, .work 0 0 .thrown, .stop]
    (run step s more).2.stop = .returned
      ∧ changes id step s more ≤ 11 * s.workingJobs + 8 * 1 + 9 :=
  ⟨by decide, (shutdown_settles 1 [] Nat.one_pos trivial _ (by
    simp [RunOk, Unaided, step, State.stopStep, State.work, State.moved, start])).1⟩

end AsyncDeleter

end XCache
