import XCache.PurgerThreads
import XCache.Proofs.Purger

/-!
# No user code under the purger's lock

A worker owns `queue_lock` in the two sections of its own, and nowhere else (`Owned`), until a retry
finds the queue full: then `fail_callback` is called in the section, and a callback that calls `add`
or `size` waits for the lock its own thread holds (`SelfLocked.blocks`). No other step goes wrong,
so user code runs without the lock exactly as long as every retry finds room
(`run_unlocked_iff`). Whatever the sections do, they do what `Purger`'s model says
(`run_core`).
-/

namespace XCache

namespace Purger

namespace Threads

variable {c : Config} {s s' : State} {a : Action} {i : ℕ} {st q : Stage} {p : Phase}

/-- The worker is in a section under the lock. -/
def Stage.inside : Stage → Bool
  | .checking | .retrying => true
  | .outside | .relocking | .calling => false

/-- The places of `Purger`'s model at which a worker can be in a stage. -/
def Stage.Fits (c : Config) : Stage → Phase → Prop
  | .outside, _ => True
  | .checking, p => p.Idle
  | .relocking, p | .retrying, p => ∃ task, p = .failed task ∧ task.tries < c.tryMax
  | .calling, p => p = .ready

/-- Every worker is at a place that fits its stage. -/
def Placed (c : Config) (s : State) : Prop :=
  ∀ (i : ℕ) (st : Stage), s.stages[i]? = some st → ∃ p, s.core.workers[i]? = some p ∧ st.Fits c p

/-- The owner of the lock is the worker in a section, if there is one. -/
def Owned (s : State) : Prop :=
  ∀ i, s.queueLock = some i ↔ ∃ st, s.stages[i]? = some st ∧ st.inside = true

structure Inv (c : Config) (s : State) : Prop where
  placed : Placed c s
  owned : Owned s

/-- No worker is in `fail_callback` and owns the lock. -/
def Unlocked (s : State) : Prop := ∀ i, s.stages[i]? = some .calling → s.queueLock ≠ some i

/-- A retry finds room in the queue. -/
def Roomy (c : Config) (s : State) : Action → Prop
  | .retry i => s.stages[i]? = some .retrying → s.core.purgeQueue.length < c.queueMax
  | _ => True

theorem inv_construct (c : Config) : Inv c (construct c) where
  placed i st h := by
    rw [List.eq_of_mem_replicate (List.mem_of_getElem? h)]
    have hi := (List.getElem?_eq_some_iff.1 h).1
    rw [construct, List.length_replicate] at hi
    exact ⟨.ready, by simp [construct, Purger.construct, hi], trivial⟩
  owned i := by
    constructor
    · intro h
      simp [construct] at h
    · rintro ⟨st, hst, hin⟩
      rw [List.eq_of_mem_replicate (List.mem_of_getElem? hst)] at hin
      simp [Stage.inside] at hin

theorem Owned.unlocked (hs : Owned s) : Unlocked s := by
  intro i hcall hlock
  obtain ⟨st, hst, hin⟩ := (hs i).1 hlock
  rw [hcall] at hst
  obtain rfl := Option.some.inj hst
  simp [Stage.inside] at hin

/-! ## What a step does -/

/-- What a step may do to the state. -/
inductive Move (c : Config) (s : State) : Action → State → Prop
  | idle (a : Action) : Move c s a s
  | share (a : Action) (b : Purger.Action)
      (hw : (Purger.step c s.core b).2.workers = s.core.workers) :
    Move c s a { s with core := (Purger.step c s.core b).2 }
  | enter (i : ℕ) (p : Phase) (hi : s.stages[i]? = some .outside)
      (hp : s.core.workers[i]? = some p) (hidle : p.Idle) (hfree : s.queueLock = none) :
    Move c s (.lock i) (s.locked i .checking)
  | take (i : ℕ) (hi : s.stages[i]? = some .checking) :
    Move c s (.take i) (s.unlocked i (Purger.take s.core i))
  | respond (i : ℕ) (httpCode : ℤ) (buffer : Str) (task : Task)
      (hp : s.core.workers[i]? = some (.requesting task)) :
    Move c s (.respond i httpCode buffer)
      { s with core := Purger.respond s.core i task httpCode buffer }
  | again (i : ℕ) (task : Task) (hi : s.stages[i]? = some .outside)
      (hp : s.core.workers[i]? = some (.failed task)) (htries : task.tries < c.tryMax) :
    Move c s (.settle i) (s.moved i .relocking s.core)
  | giveUp (i : ℕ) (task : Task) (hi : s.stages[i]? = some .outside)
      (hp : s.core.workers[i]? = some (.failed task)) (htries : ¬ task.tries < c.tryMax) :
    Move c s (.settle i) (s.moved i .calling (failCallback s.core i task))
  | reenter (i : ℕ) (hi : s.stages[i]? = some .relocking) (hfree : s.queueLock = none) :
    Move c s (.relock i) (s.locked i .retrying)
  | push (i : ℕ) (task : Task) (hi : s.stages[i]? = some .retrying)
      (hp : s.core.workers[i]? = some (.failed task))
      (hroom : s.core.purgeQueue.length < c.queueMax) :
    Move c s (.retry i) (s.unlocked i
      { s.core.moved i .ready with purgeQueue := s.core.purgeQueue ++ [task] })
  | overflow (i : ℕ) (task : Task) (hi : s.stages[i]? = some .retrying)
      (hp : s.core.workers[i]? = some (.failed task))
      (hfull : ¬ s.core.purgeQueue.length < c.queueMax) :
    Move c s (.retry i) (s.moved i .calling (failCallback s.core i task))
  | callReturn (i : ℕ) (hi : s.stages[i]? = some .calling) : Move c s (.finish i) (finish s i)

theorem add_move (c : Config) (s : State) (a : Action) (path : Str) :
    Move c s a (add c s path).2 := by
  unfold add
  split
  · refine .share a (.add path) ?_
    show (Purger.add c s.core path).2.workers = _
    unfold Purger.add
    split <;> rfl
  · exact .idle a

theorem size_move (c : Config) (s : State) (a : Action) : Move c s a (size s).2 := by
  unfold size
  split <;> exact .idle a

theorem settle_move {task : Task} (hi : s.stages[i]? = some .outside)
    (hp : s.core.workers[i]? = some (.failed task)) :
    Move c s (.settle i) (settle c s i task) := by
  unfold settle
  split
  · exact .again i task hi hp ‹_›
  · exact .giveUp i task hi hp ‹_›

theorem retry_move {task : Task} (hi : s.stages[i]? = some .retrying)
    (hp : s.core.workers[i]? = some (.failed task)) :
    Move c s (.retry i) (retry c s i task) := by
  unfold retry
  split
  · exact .push i task hi hp ‹_›
  · exact .overflow i task hi hp ‹_›

theorem step_move (c : Config) (s : State) (a : Action) : Move c s a (step c s a).2 := by
  cases a with
  | add path => exact add_move c s _ path
  | size => exact size_move c s _
  | stop =>
    simp only [step]
    split
    · refine .share _ .stop ?_
      show (Purger.stop s.core).workers = _
      unfold Purger.stop
      split <;> rfl
    · exact .idle _
  | stopReturn =>
    refine .share _ .stopReturn ?_
    show (Purger.stopReturn s.core).workers = _
    unfold Purger.stopReturn
    split <;> rfl
  | lock i =>
    simp only [step]
    split
    · split
      · exact .enter i _ ‹_› ‹_› (.inl rfl) ‹_›
      · exact .idle _
    · split
      · exact .enter i _ ‹_› ‹_› (.inr rfl) ‹_›
      · exact .idle _
    · exact .idle _
  | take i =>
    simp only [step]
    split
    · exact .take i ‹_›
    · exact .idle _
  | respond i httpCode buffer =>
    simp only [step]
    split
    · exact .respond i httpCode buffer _ ‹_›
    · exact .idle _
  | settle i =>
    simp only [step]
    split
    · exact settle_move ‹_› ‹_›
    · exact .idle _
  | relock i =>
    simp only [step]
    split
    · split
      · exact .reenter i ‹_› ‹_›
      · exact .idle _
    · exact .idle _
  | retry i =>
    simp only [step]
    split
    · exact retry_move ‹_› ‹_›
    · exact .idle _
  | callAdd i path =>
    simp only [step]
    split
    · exact add_move c s _ path
    · exact .idle _
  | callSize i =>
    simp only [step]
    split
    · exact size_move c s _
    · exact .idle _
  | finish i =>
    simp only [step]
    split
    · exact .callReturn i ‹_›
    · exact .idle _

/-! ## Where the workers are -/

theorem take_workers (s : Purger.State) (i : ℕ) :
    ∃ p, (Purger.take s i).workers = s.workers.set i p := by
  unfold Purger.take
  split
  · exact ⟨_, rfl⟩
  · split <;> exact ⟨_, rfl⟩

theorem respond_workers (s : Purger.State) (i : ℕ) (task : Task) (httpCode : ℤ) (buffer : Str) :
    ∃ p, (Purger.respond s i task httpCode buffer).workers = s.workers.set i p := by
  unfold Purger.respond
  split <;> exact ⟨_, rfl⟩

/-- A worker that changes its stage only. -/
theorem Placed.stage (hs : Placed c s) (hp : s.core.workers[i]? = some p) (hfits : q.Fits c p)
    (l : Option ℕ) : Placed c { s with queueLock := l, stages := s.stages.set i q } := by
  intro j r hr
  rcases getElem?_move hr with ⟨rfl, rfl⟩ | ⟨-, hr⟩
  · exact ⟨p, hp, hfits⟩
  · exact hs j r hr

/-- A worker that changes its place, too. -/
theorem Placed.place (hs : Placed c s) (hi : s.stages[i]? = some st) {core : Purger.State}
    (hw : core.workers = s.core.workers.set i p) (hfits : q.Fits c p) (l : Option ℕ) :
    Placed c { core := core, queueLock := l, stages := s.stages.set i q } := by
  obtain ⟨w, hold, -⟩ := hs i st hi
  intro j r hr
  show ∃ p, core.workers[j]? = some p ∧ _
  rw [hw]
  rcases getElem?_move hr with ⟨rfl, rfl⟩ | ⟨hj, hr⟩
  · exact ⟨p, List.getElem?_set_self (List.getElem?_eq_some_iff.1 hold).1, hfits⟩
  · rw [List.getElem?_set_ne (Ne.symm hj)]
    exact hs j r hr

/-- A worker that waits for an answer is in no other stage. -/
theorem Stage.Fits.outside {task : Task} (h : st.Fits c (.requesting task)) : st = .outside := by
  cases st with
  | outside => rfl
  | checking => rcases h with h | h <;> simp at h
  | relocking => simp [Stage.Fits] at h
  | retrying => simp [Stage.Fits] at h
  | calling => simp [Stage.Fits] at h

theorem Move.placed (hm : Move c s a s') (hs : Placed c s) : Placed c s' := by
  cases hm with
  | idle => exact hs
  | share _ b hw =>
    intro j r hr
    show ∃ p, (Purger.step c s.core b).2.workers[j]? = some p ∧ _
    rw [hw]
    exact hs j r hr
  | enter i p hi hp hidle => exact hs.stage (q := .checking) hp hidle _
  | take i hi =>
    obtain ⟨p, hw⟩ := take_workers s.core i
    exact hs.place (q := .outside) hi hw trivial _
  | respond i httpCode buffer task hp =>
    obtain ⟨p', hw⟩ := respond_workers s.core i task httpCode buffer
    intro j r hr
    obtain ⟨w, hw', hfits⟩ := hs j r hr
    show ∃ p, (Purger.respond s.core i task httpCode buffer).workers[j]? = some p ∧ _
    rw [hw]
    by_cases hj : j = i
    · subst hj
      rw [hp] at hw'
      obtain rfl := Option.some.inj hw'
      rw [hfits.outside]
      exact ⟨p', List.getElem?_set_self (List.getElem?_eq_some_iff.1 hp).1, trivial⟩
    · exact ⟨w, by rwa [List.getElem?_set_ne (Ne.symm hj)], hfits⟩
  | again i task hi hp htries => exact hs.stage (q := .relocking) hp ⟨task, rfl, htries⟩ _
  | giveUp i task hi hp => exact hs.place (p := .ready) (q := .calling) hi rfl rfl _
  | reenter i hi =>
    obtain ⟨p, hp, hfits⟩ := hs i _ hi
    exact hs.stage (q := .retrying) hp hfits _
  | push i task hi hp => exact hs.place (p := .ready) (q := .outside) hi rfl trivial _
  | overflow i task hi hp => exact hs.place (p := .ready) (q := .calling) hi rfl rfl _
  | callReturn i hi =>
    obtain ⟨p, hp, -⟩ := hs i _ hi
    exact hs.stage (q := .outside) hp trivial _

/-! ## Who owns the lock -/

/-- The lock is with the worker that moves on, or was and is with another, as its stages say. -/
theorem Owned.move (hs : Owned s) (hi : s.stages[i]? = some st) {core : Purger.State}
    {l : Option ℕ} (hl : l = some i ↔ q.inside = true)
    (hl' : ∀ j ≠ i, l = some j ↔ s.queueLock = some j) :
    Owned { core := core, queueLock := l, stages := s.stages.set i q } := by
  intro j
  show l = some j ↔ ∃ r, (s.stages.set i q)[j]? = some r ∧ _
  by_cases hj : j = i
  · subst hj
    rw [List.getElem?_set_self (List.getElem?_eq_some_iff.1 hi).1, hl]
    simp
  · rw [List.getElem?_set_ne (Ne.symm hj), hl' j hj]
    exact hs j

theorem Owned.enter (hs : Owned s) (hi : s.stages[i]? = some st) (hfree : s.queueLock = none)
    (hin : q.inside = true) : Owned (s.locked i q) := by
  refine hs.move hi (by simp [hin]) fun j hj => ?_
  rw [hfree]
  simp [Ne.symm hj]

theorem Owned.leave (hs : Owned s) (hi : s.stages[i]? = some st) (hin : st.inside = true)
    (core : Purger.State) : Owned (s.unlocked i core) := by
  have hlock := (hs i).2 ⟨st, hi, hin⟩
  refine hs.move hi (by simp [Stage.inside]) fun j hj => ?_
  rw [hlock]
  simp [Ne.symm hj]

theorem Owned.stay (hs : Owned s) (hi : s.stages[i]? = some st) (hout : st.inside = false)
    (hout' : q.inside = false) (core : Purger.State) : Owned (s.moved i q core) := by
  refine hs.move hi ?_ fun _ _ => Iff.rfl
  rw [hs i, hi, hout']
  simp [hout]

/-- Every step keeps the lock with the sections, but for a retry that finds the queue full. -/
theorem Move.owned (hm : Move c s a s') (hs : Owned s) (ha : Roomy c s a) : Owned s' := by
  cases hm with
  | idle => exact hs
  | share => exact hs
  | enter i p hi hp hidle hfree => exact hs.enter hi hfree rfl
  | take i hi => exact hs.leave hi rfl _
  | respond => exact hs
  | again i task hi => exact hs.stay hi rfl rfl _
  | giveUp i task hi => exact hs.stay hi rfl rfl _
  | reenter i hi hfree => exact hs.enter hi hfree rfl
  | push i task hi => exact hs.leave hi rfl _
  | overflow i task hi hp hfull => exact absurd (ha hi) hfull
  | callReturn i hi =>
    have hfree : s.queueLock ≠ some i := hs.unlocked i hi
    rw [finish, if_neg hfree]
    exact hs.stay hi rfl rfl s.core

theorem step_keeps (hs : Inv c s) (a : Action) (ha : Roomy c s a) : Inv c (step c s a).2 :=
  ⟨(step_move c s a).placed hs.placed, (step_move c s a).owned hs.owned ha⟩

/-! ## What a callback under the lock does -/

/-- Worker `i` is in `fail_callback`, under the lock. -/
structure SelfLocked (s : State) (i : ℕ) : Prop where
  calling : s.stages[i]? = some .calling
  lock : s.queueLock = some i
  outside : ∀ (j : ℕ) (st : Stage), s.stages[j]? = some st → st.inside = false

/-- A retry that finds the queue full calls `fail_callback` under the lock. -/
theorem retry_selfLocked (hs : Inv c s) (hi : s.stages[i]? = some .retrying)
    (hfull : ¬ s.core.purgeQueue.length < c.queueMax) : SelfLocked (step c s (.retry i)).2 i := by
  obtain ⟨p, hp, task, rfl, -⟩ := hs.placed i _ hi
  have hlock : s.queueLock = some i := (hs.owned i).2 ⟨_, hi, rfl⟩
  have hstep : (step c s (.retry i)).2 = s.moved i .calling (failCallback s.core i task) := by
    simp only [step, hi, hp]
    rw [retry, if_neg hfull]
  rw [hstep]
  refine ⟨List.getElem?_set_self (List.getElem?_eq_some_iff.1 hi).1, hlock, fun j st hj => ?_⟩
  rcases getElem?_move hj with ⟨-, rfl⟩ | ⟨hne, hj⟩
  · rfl
  · rw [← Bool.not_eq_true]
    intro hin
    have hj' := (hs.owned j).2 ⟨st, hj, hin⟩
    rw [hlock] at hj'
    exact hne (Option.some.inj hj').symm

/-- Another worker that moves on, outside its sections. -/
theorem SelfLocked.moved (hs : SelfLocked s i) {j : ℕ} (hj : s.stages[j]? = some st)
    (hne : st ≠ .calling ∨ j ≠ i) (hout : q.inside = false) (core : Purger.State) :
    SelfLocked (s.moved j q core) i := by
  have hji : j ≠ i := by
    rcases hne with h | h
    · rintro rfl
      rw [hs.calling] at hj
      exact h (Option.some.inj hj).symm
    · exact h
  refine ⟨(List.getElem?_set_ne hji).trans hs.calling, hs.lock, fun k r hr => ?_⟩
  rcases getElem?_move hr with ⟨-, rfl⟩ | ⟨-, hr⟩
  · exact hout
  · exact hs.outside k r hr

/-- Whatever the other threads do, the worker owns the lock until its callback returns. -/
theorem Move.selfLocked (hm : Move c s a s') (hs : SelfLocked s i) (ha : a ≠ .finish i) :
    SelfLocked s' i := by
  have hlock : s.queueLock ≠ none := by simp [hs.lock]
  cases hm with
  | idle => exact hs
  | share => exact ⟨hs.calling, hs.lock, hs.outside⟩
  | enter j p hj hp hidle hfree => exact absurd hfree hlock
  | take j hj => exact absurd (hs.outside j _ hj) (by simp [Stage.inside])
  | respond => exact ⟨hs.calling, hs.lock, hs.outside⟩
  | again j task hj => exact hs.moved hj (.inl (by simp)) rfl _
  | giveUp j task hj => exact hs.moved hj (.inl (by simp)) rfl _
  | reenter j hj hfree => exact absurd hfree hlock
  | push j task hj => exact absurd (hs.outside j _ hj) (by simp [Stage.inside])
  | overflow j task hj => exact absurd (hs.outside j _ hj) (by simp [Stage.inside])
  | callReturn j hj =>
    have hji : j ≠ i := fun h => ha (by rw [h])
    have hne : s.queueLock ≠ some j := fun h => by
      rw [hs.lock] at h
      exact hji (Option.some.inj h).symm
    rw [finish, if_neg hne]
    exact hs.moved hj (.inr hji) rfl s.core

/-- A callback that is called under the lock and calls `add` or `size` waits for good: the lock is
not released before the callback returns. -/
theorem SelfLocked.blocks (hs : SelfLocked s i) (as : List Action)
    (has : ∀ a ∈ as, a ≠ .finish i) (path : Str) :
    (step c (run (step c) s as).2 (.callAdd i path)).1 = .blocked
      ∧ (step c (run (step c) s as).2 (.callSize i)).1 = .blocked := by
  have hlast : SelfLocked (run (step c) s as).2 i :=
    run_invariant (I := (SelfLocked · i)) (fun s a hs ha => (step_move c s a).selfLocked hs ha) s
      as hs (RunOk.of_inputs s as has)
  have hlock : (run (step c) s as).2.queueLock ≠ none := by simp [hlast.lock]
  simp only [step, hlast.calling, add, size, if_neg hlock, and_self]

theorem not_unlocked (hs : Inv c s) (ha : ¬ Roomy c s a) : ¬ Unlocked (step c s a).2 := by
  cases a with
  | retry i =>
    obtain ⟨hi, hfull⟩ : s.stages[i]? = some .retrying
        ∧ ¬ s.core.purgeQueue.length < c.queueMax := by
      simpa only [Roomy, Classical.not_imp] using ha
    have hself := retry_selfLocked hs hi hfull
    exact fun h => h i hself.calling hself.lock
  | _ => exact absurd trivial ha

/-! ## Over a run -/

/-- In every run, no `fail_callback` is called, or runs, under the lock of its own worker, exactly
if every retry finds room in the queue. -/
theorem run_unlocked_iff (c : Config) (as : List Action) :
    RunOk (step c) (fun s a => Unlocked (step c s a).2) (construct c) as
      ↔ RunOk (step c) (Roomy c) (construct c) as :=
  runOk_iff (I := Inv c)
    (fun _ a hs _ ha => ⟨step_keeps hs a ha, (step_keeps hs a ha).owned.unlocked⟩)
    (fun _ _ hs _ ha => not_unlocked hs ha) _ as (inv_construct c) (RunOk.top _ as)

/-- One worker, a queue of one and two tries: the queue has been filled when the worker comes back
with its failed task. -/
theorem retry_calls_locked :
    ¬ RunOk (step ⟨1, 1, 2⟩) (fun s a => Unlocked (step ⟨1, 1, 2⟩ s a).2) (construct ⟨1, 1, 2⟩)
      [.add [97], .lock 0, .take 0, .add [98], .respond 0 500 [], .settle 0, .relock 0,
        .retry 0] := by
  intro h
  have hlast := h.2.2.2.2.2.2.2.1
  exact hlast 0 (by decide) (by decide)

/-! ## The model of whole sections -/

/-- A step is a step of `Purger`'s model, or on the way to one. -/
theorem Move.core (hm : Move c s a s') (hs : Placed c s) :
    s'.core = s.core ∨ ∃ b, s'.core = (Purger.step c s.core b).2 := by
  cases hm with
  | idle | enter | again | reenter | callReturn => exact .inl rfl
  | share _ b => exact .inr ⟨b, rfl⟩
  | take i hi =>
    refine .inr ⟨.take i, ?_⟩
    obtain ⟨p, hp, rfl | rfl⟩ := hs i _ hi <;>
    · simp only [Purger.step, hp]
      rfl
  | respond i httpCode buffer task hp =>
    exact .inr ⟨.respond i httpCode buffer, by simp only [Purger.step, hp]⟩
  | giveUp i task hi hp htries =>
    refine .inr ⟨.settle i, ?_⟩
    simp only [Purger.step, hp]
    rw [Purger.settle, if_neg htries]
    rfl
  | push i task hi hp hroom =>
    obtain ⟨p, hp', t, rfl, htries⟩ := hs i _ hi
    obtain rfl : t = task := by
      rw [hp'] at hp
      simpa using hp
    refine .inr ⟨.settle i, ?_⟩
    simp only [Purger.step, hp]
    rw [Purger.settle, if_pos htries, if_pos hroom]
    rfl
  | overflow i task hi hp hfull =>
    obtain ⟨p, hp', t, rfl, htries⟩ := hs i _ hi
    obtain rfl : t = task := by
      rw [hp'] at hp
      simpa using hp
    refine .inr ⟨.settle i, ?_⟩
    simp only [Purger.step, hp]
    rw [Purger.settle, if_pos htries, if_neg hfull]
    rfl

/-- What a run does to the tasks, a run of `Purger`'s model does. -/
theorem run_core (c : Config) (as : List Action) :
    ∃ bs, (run (step c) (construct c) as).2.core
      = (run (Purger.step c) (Purger.construct c) bs).2 := by
  suffices H : ∀ (as : List Action) (s : State), Placed c s →
      ∃ bs, (run (step c) s as).2.core = (run (Purger.step c) s.core bs).2 from
    H as _ (inv_construct c).placed
  intro as
  induction as with
  | nil => exact fun s _ => ⟨[], rfl⟩
  | cons a as ih =>
    intro s hs
    obtain ⟨bs, hbs⟩ := ih (step c s a).2 ((step_move c s a).placed hs)
    rw [run_cons]
    rcases (step_move c s a).core hs with hcore | ⟨b, hcore⟩
    · rw [hcore] at hbs
      exact ⟨bs, hbs⟩
    · rw [hcore] at hbs
      exact ⟨b :: bs, hbs⟩

end Threads

end Purger

end XCache
