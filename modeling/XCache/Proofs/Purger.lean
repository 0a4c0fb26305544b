import XCache.Purger

/-!
# The purger loses no task

What a step may do is listed once (`step_change`). Of the tasks there are, wherever they are, it
leaves all as they were, or it brings a new one, or it counts one more try of one of them
(`Change.tasks`); from there, every path accepted is in one place, with as many tries as it has been
taken for a request.
-/

namespace XCache

namespace Purger

/-- The task a worker has. -/
def Phase.task : Phase → Option Task
  | .requesting t | .failed t => some t
  | .ready | .waiting | .exited => none

namespace State

/-- The tasks the workers have. -/
def inFlight (s : State) : List Task := held Phase.task s.workers

/-- The tasks, wherever they are. -/
def tasks (s : State) : List Task := s.purgeQueue ++ s.inFlight ++ s.purged ++ s.reported

end State

/-- A worker at its first section. -/
def Phase.Idle (p : Phase) : Prop := p = .ready ∨ p = .waiting

theorem Phase.Idle.task {p : Phase} (h : p.Idle) : p.task = none := by
  rcases h with rfl | rfl <;> rfl

theorem Phase.Idle.ne_exited {p : Phase} (h : p.Idle) : p ≠ .exited := by
  rcases h with rfl | rfl <;> simp

variable {c : Config} {s s' : State} {a : Action}

/-- What a step may do to the state. -/
inductive Change (c : Config) (s : State) : Action → State → Prop
  | none (a : Action) : Change c s a s
  | accept (path : Str) (hroom : s.purgeQueue.length < c.queueMax) :
    Change c s (.add path) { s with
      purgeQueue := s.purgeQueue ++ [⟨s.accepted.length, slashed path, 0⟩]
      accepted := s.accepted ++ [(s.accepted.length, slashed path)] }
  | wait (i : ℕ) (p : Phase) (h : s.workers[i]? = some p) (hp : p.Idle) (hq : s.purgeQueue = []) :
    Change c s (.take i) (s.moved i .waiting)
  | quit (i : ℕ) (p : Phase) (h : s.workers[i]? = some p) (hp : p.Idle) :
    Change c s (.take i) { s.moved i .exited with runningWorker := s.runningWorker - 1 }
  | pop (i : ℕ) (p : Phase) (task : Task) (rest : List Task) (h : s.workers[i]? = some p)
      (hp : p.Idle) (hstop : s.stopSignal = false) (hq : s.purgeQueue = task :: rest) :
    Change c s (.take i) { s.moved i (.requesting task.tried) with
      purgeQueue := rest
      attempts := s.attempts ++ [task.ticket] }
  | fail (i : ℕ) (httpCode : ℤ) (buffer : Str) (task : Task)
      (h : s.workers[i]? = some (.requesting task)) :
    Change c s (.respond i httpCode buffer) (s.moved i (.failed task))
  | purge (i : ℕ) (buffer : Str) (task : Task) (h : s.workers[i]? = some (.requesting task)) :
    Change c s (.respond i 200 buffer) { s.moved i .ready with purged := s.purged ++ [task] }
  | requeue (i : ℕ) (task : Task) (h : s.workers[i]? = some (.failed task))
      (htries : task.tries < c.tryMax) (hroom : s.purgeQueue.length < c.queueMax) :
    Change c s (.settle i) { s.moved i .ready with purgeQueue := s.purgeQueue ++ [task] }
  | report (i : ℕ) (task : Task) (h : s.workers[i]? = some (.failed task)) :
    Change c s (.settle i) (failCallback s i task)
  | signal (hstop : s.stopSignal = false) :
    Change c s .stop { s with stopSignal := true, stop := .waiting }
  | stopReturn (hstop : s.stop = .waiting) (hrun : s.runningWorker = 0) :
    Change c s .stopReturn { s with stop := .returned }

theorem take_change {i : ℕ} {p : Phase} (h : s.workers[i]? = some p) (hp : p.Idle) :
    Change c s (.take i) (take s i) := by
  unfold take
  by_cases hstop : s.stopSignal = true
  · rw [if_pos hstop]
    exact .quit i p h hp
  · rw [if_neg hstop]
    rcases hq : s.purgeQueue with _ | ⟨task, rest⟩
    · exact .wait i p h hp hq
    · exact .pop i p task rest h hp (by simpa using hstop) hq

theorem respond_change {i : ℕ} {task : Task} (h : s.workers[i]? = some (.requesting task))
    (httpCode : ℤ) (buffer : Str) :
    Change c s (.respond i httpCode buffer) (respond s i task httpCode buffer) := by
  unfold respond
  split
  · exact .fail i httpCode buffer task h
  · rename_i hok
    obtain ⟨rfl, -⟩ : httpCode = 200 ∧ buffer.take 4 = validResponse := by simpa using hok
    exact .purge i buffer task h

theorem settle_change {i : ℕ} {task : Task} (h : s.workers[i]? = some (.failed task)) :
    Change c s (.settle i) (settle c s i task) := by
  unfold settle
  by_cases htries : task.tries < c.tryMax
  · rw [if_pos htries]
    by_cases hroom : s.purgeQueue.length < c.queueMax
    · rw [if_pos hroom]
      exact .requeue i task h htries hroom
    · rw [if_neg hroom]
      exact .report i task h
  · rw [if_neg htries]
    exact .report i task h

theorem step_change (c : Config) (s : State) (a : Action) : Change c s a (step c s a).2 := by
  cases a with
  | add path =>
    simp only [step, add]
    split
    · exact .accept path (by assumption)
    · exact .none _
  | take i =>
    simp only [step]
    split
    · exact take_change (by assumption) (.inl rfl)
    · exact take_change (by assumption) (.inr rfl)
    · exact .none _
  | respond i httpCode buffer =>
    simp only [step]
    split
    · exact respond_change (by assumption) httpCode buffer
    · exact .none _
  | settle i =>
    simp only [step]
    split
    · exact settle_change (by assumption)
    · exact .none _
  | stop =>
    simp only [step, stop]
    split
    · exact .none _
    · exact .signal (by simp_all)
  | stopReturn =>
    simp only [step, stopReturn]
    split
    · rename_i h
      exact .stopReturn h.1 h.2
    · exact .none _

/-- What a step does to the tasks, wherever they are, and to what is recorded of them. -/
inductive TasksChange (s s' : State) : Prop
  | same (htasks : s'.tasks.Perm s.tasks) (hacc : s'.accepted = s.accepted)
      (hatt : s'.attempts = s.attempts)
  | new (path : Str) (htasks : s'.tasks.Perm (⟨s.accepted.length, path, 0⟩ :: s.tasks))
      (hacc : s'.accepted = s.accepted ++ [(s.accepted.length, path)])
      (hatt : s'.attempts = s.attempts)
  | tried (t : Task) (ts : List Task) (ht : t ∈ s.purgeQueue) (hbefore : s.tasks.Perm (t :: ts))
      (htasks : s'.tasks.Perm (t.tried :: ts)) (hacc : s'.accepted = s.accepted)
      (hatt : s'.attempts = s.attempts ++ [t.ticket])

theorem count_tasks (s : State) (t : Task) :
    s.tasks.count t = s.purgeQueue.count t + s.inFlight.count t + s.purged.count t
      + s.reported.count t := by
  simp only [State.tasks, List.count_append]

theorem count_inFlight {i : ℕ} {p q : Phase} (h : s.workers[i]? = some p)
    (hw : s'.workers = s.workers.set i q) (t : Task) :
    p.task.toList.count t + s'.inFlight.count t = q.task.toList.count t + s.inFlight.count t := by
  have hm := (held_move Phase.task (q := q) h).count_eq t
  rwa [← hw, List.count_append, List.count_append] at hm

theorem tasks_moved {i : ℕ} {p q : Phase} (h : s.workers[i]? = some p) (hpq : q.task = p.task)
    (hw : s'.workers = s.workers.set i q) (hq : s'.purgeQueue = s.purgeQueue)
    (hpurged : s'.purged = s.purged) (hreported : s'.reported = s.reported) :
    s'.tasks.Perm s.tasks := by
  rw [List.perm_iff_count]
  intro t
  have hm := count_inFlight h hw t
  rw [hpq] at hm
  rw [count_tasks, count_tasks, hq, hpurged, hreported]
  omega

theorem tasks_away {i : ℕ} {p q : Phase} {task : Task} (h : s.workers[i]? = some p)
    (hp : p.task = some task) (hq : q.task = none) (hw : s'.workers = s.workers.set i q)
    (haway : (s'.purgeQueue ++ s'.purged ++ s'.reported).Perm
      (task :: (s.purgeQueue ++ s.purged ++ s.reported))) :
    s'.tasks.Perm s.tasks := by
  rw [List.perm_iff_count]
  intro t
  have hm := count_inFlight h hw t
  have haway := haway.count_eq t
  rw [hp, hq] at hm
  simp only [List.count_append, List.count_cons] at haway
  simp only [Option.toList_some, Option.toList_none, List.count_cons, List.count_nil] at hm
  rw [count_tasks, count_tasks]
  omega

theorem Change.tasks (h : Change c s a s') : TasksChange s s' := by
  cases h with
  | none => exact .same (.refl _) rfl rfl
  | accept path =>
    refine .new (slashed path) ?_ rfl rfl
    simp only [State.tasks, List.append_assoc]
    exact List.perm_middle
  | wait i p h hp =>
    exact .same (tasks_moved (q := .waiting) h hp.task.symm rfl rfl rfl rfl) rfl rfl
  | quit i p h hp =>
    exact .same (tasks_moved (q := .exited) h hp.task.symm rfl rfl rfl rfl) rfl rfl
  | pop i p task rest h hp _ hq =>
    refine .tried task (rest ++ s.inFlight ++ s.purged ++ s.reported) ?_ ?_ ?_ rfl rfl
    · rw [hq]
      exact List.mem_cons_self
    · simp only [State.tasks, hq, List.cons_append]
      exact .refl _
    · have hm : (held Phase.task (s.workers.set i (.requesting task.tried))).Perm
          (task.tried :: s.inFlight) := held_take h hp.task rfl
      simp only [State.tasks, State.inFlight, State.moved, List.append_assoc]
      refine ((hm.append_right _).append_left rest).trans ?_
      exact List.perm_middle
  | fail i httpCode buffer task h =>
    exact .same (tasks_moved (q := .failed task) h rfl rfl rfl rfl rfl) rfl rfl
  | purge i buffer task h =>
    refine .same (tasks_away (q := .ready) h rfl rfl rfl ?_) rfl rfl
    simp only [State.moved, List.append_assoc]
    exact (List.perm_middle.append_left _).trans List.perm_middle
  | requeue i task h =>
    refine .same (tasks_away (q := .ready) h rfl rfl rfl ?_) rfl rfl
    simp only [State.moved, List.append_assoc]
    exact List.perm_middle
  | report i task h =>
    refine .same (tasks_away (q := .ready) h rfl rfl rfl ?_) rfl rfl
    simp only [failCallback, State.moved, ← List.append_assoc]
    exact List.perm_append_singleton task _
  | signal => exact .same (.refl _) rfl rfl
  | stopReturn => exact .same (.refl _) rfl rfl

/-- What the queue gains is a new task or one to be tried again. -/
theorem Change.queued (h : Change c s a s') {t : Task} (ht : t ∈ s'.purgeQueue) :
    t ∈ s.purgeQueue ∨ t.tries < max 1 c.tryMax := by
  cases h with
  | accept path hroom =>
    rcases List.mem_append.1 ht with ht | ht
    · exact .inl ht
    · obtain rfl := List.mem_singleton.1 ht
      exact .inr (by simp)
  | pop i p task rest h hp hstop hq =>
    rw [hq]
    exact .inl (List.mem_cons_of_mem _ ht)
  | requeue i task h htries hroom =>
    rcases List.mem_append.1 ht with ht | ht
    · exact .inl ht
    · obtain rfl := List.mem_singleton.1 ht
      exact .inr (htries.trans_le (le_max_right _ _))
  | _ => exact .inl ht

theorem Change.room (h : Change c s a s') (hs : s.purgeQueue.length ≤ c.queueMax) :
    s'.purgeQueue.length ≤ c.queueMax := by
  cases h with
  | accept path hroom => simpa using hroom
  | pop i p task rest h hp hstop hq =>
    rw [hq, List.length_cons] at hs
    exact (Nat.le_succ _).trans hs
  | requeue i task h htries hroom => simpa [State.moved] using hroom
  | _ => exact hs

/-- Every path accepted is in one place, with as many tries as there were requests for it. -/
structure Ledger (c : Config) (s : State) : Prop where
  tickets : s.accepted.map Prod.fst = List.range s.accepted.length
  places : (s.tasks.map Task.occurrence).Perm s.accepted
  requests : ∀ t ∈ s.tasks, (s.attempts.count t.ticket : ℤ) = t.tries
  issued : ∀ n ∈ s.attempts, n < s.accepted.length
  tries : ∀ t ∈ s.tasks, t.tries ≤ max 1 c.tryMax
  queued : ∀ t ∈ s.purgeQueue, t.tries < max 1 c.tryMax
  room : s.purgeQueue.length ≤ c.queueMax

theorem construct_tasks (c : Config) : (construct c).tasks = [] := by
  have : held Phase.task (List.replicate c.threadMax.toNat .ready) = [] := held_replicate rfl
  simp [State.tasks, State.inFlight, construct, this]

theorem construct_ledger (c : Config) : Ledger c (construct c) where
  tickets := rfl
  places := by rw [construct_tasks]; exact .refl _
  requests := by simp [construct_tasks]
  issued := by simp [construct]
  tries := by simp [construct_tasks]
  queued := by simp [construct]
  room := Nat.zero_le _

namespace Ledger

theorem nodup (h : Ledger c s) : (s.tasks.map Task.ticket).Nodup := by
  have hp := h.places.map Prod.fst
  rw [h.tickets, List.map_map] at hp
  exact hp.nodup_iff.2 List.nodup_range

theorem accepted_nodup (h : Ledger c s) : s.accepted.Nodup :=
  List.Nodup.of_map Prod.fst (by rw [h.tickets]; exact List.nodup_range)

theorem ticket_lt (h : Ledger c s) {o : ℕ × Str} (ho : o ∈ s.accepted) :
    o.1 < s.accepted.length := by
  have := List.mem_map_of_mem (f := Prod.fst) ho
  rwa [h.tickets, List.mem_range] at this

theorem new (h : Ledger c s) {path : Str}
    (htasks : s'.tasks.Perm (⟨s.accepted.length, path, 0⟩ :: s.tasks))
    (hacc : s'.accepted = s.accepted ++ [(s.accepted.length, path)])
    (hatt : s'.attempts = s.attempts) (hqueued : ∀ t ∈ s'.purgeQueue, t.tries < max 1 c.tryMax)
    (hroom : s'.purgeQueue.length ≤ c.queueMax) : Ledger c s' := by
  refine ⟨?_, ?_, fun t ht => ?_, fun n hn => ?_, fun t ht => ?_, hqueued, hroom⟩
  · rw [hacc, List.map_append, h.tickets, List.length_append, List.length_singleton,
      List.range_succ]
    rfl
  · rw [hacc]
    exact ((htasks.map _).trans (h.places.cons _)).trans
      (List.perm_append_singleton _ _).symm
  · rw [hatt]
    rcases List.mem_cons.1 (htasks.mem_iff.1 ht) with rfl | ht
    · have : s.accepted.length ∉ s.attempts := fun hn => (h.issued _ hn).ne rfl
      simp [List.count_eq_zero_of_not_mem this]
    · exact h.requests t ht
  · rw [hatt] at hn
    have := h.issued n hn
    rw [hacc, List.length_append]
    omega
  · rcases List.mem_cons.1 (htasks.mem_iff.1 ht) with rfl | ht
    · exact zero_le_one.trans (le_max_left _ _)
    · exact h.tries t ht

theorem tried (h : Ledger c s) {t : Task} {ts : List Task} (ht : t ∈ s.purgeQueue)
    (hbefore : s.tasks.Perm (t :: ts)) (htasks : s'.tasks.Perm (t.tried :: ts))
    (hacc : s'.accepted = s.accepted) (hatt : s'.attempts = s.attempts ++ [t.ticket])
    (hqueued : ∀ t ∈ s'.purgeQueue, t.tries < max 1 c.tryMax)
    (hroom : s'.purgeQueue.length ≤ c.queueMax) : Ledger c s' := by
  have hmem : ∀ {u}, u ∈ t :: ts → u ∈ s.tasks := hbefore.mem_iff.2
  have hother : ∀ u ∈ ts, u.ticket ≠ t.ticket := by
    intro u hu heq
    have hn := (hbefore.map Task.ticket).nodup_iff.1 h.nodup
    rw [List.map_cons, List.nodup_cons] at hn
    exact hn.1 (heq ▸ List.mem_map_of_mem hu)
  refine ⟨by rw [hacc]; exact h.tickets, ?_, fun u hu => ?_, fun n hn => ?_, fun u hu => ?_,
    hqueued, hroom⟩
  · rw [hacc]
    exact (htasks.map _).trans ((hbefore.map _).symm.trans h.places)
  · rw [hatt, List.count_append]
    rcases List.mem_cons.1 (htasks.mem_iff.1 hu) with rfl | hu
    · have := h.requests t (hmem List.mem_cons_self)
      simp only [Task.tried, List.count_singleton_self]
      omega
    · rw [List.count_singleton, if_neg (by simpa using (hother u hu).symm)]
      simpa using h.requests u (hmem (List.mem_cons_of_mem _ hu))
  · rw [hacc]
    rw [hatt] at hn
    rcases List.mem_append.1 hn with hn | hn
    · exact h.issued n hn
    · obtain rfl := List.mem_singleton.1 hn
      exact h.ticket_lt (h.places.mem_iff.1 (List.mem_map_of_mem (hmem List.mem_cons_self)))
  · rcases List.mem_cons.1 (htasks.mem_iff.1 hu) with rfl | hu
    · exact h.queued t ht
    · exact h.tries u (hmem (List.mem_cons_of_mem _ hu))

theorem step (h : Ledger c s) (a : Action) : Ledger c (step c s a).2 := by
  have hchange := step_change c s a
  have hqueued : ∀ t ∈ (Purger.step c s a).2.purgeQueue, t.tries < max 1 c.tryMax := by
    intro t ht
    rcases hchange.queued ht with ht | ht
    · exact h.queued t ht
    · exact ht
  have hroom := hchange.room h.room
  cases hchange.tasks with
  | same htasks hacc hatt =>
    refine ⟨by rw [hacc]; exact h.tickets, ?_, fun t ht => ?_, ?_, fun t ht => ?_, hqueued, hroom⟩
    · rw [hacc]
      exact (htasks.map _).trans h.places
    · rw [hatt]
      exact h.requests t (htasks.mem_iff.1 ht)
    · rw [hatt, hacc]
      exact h.issued
    · exact h.tries t (htasks.mem_iff.1 ht)
  | new path htasks hacc hatt => exact h.new htasks hacc hatt hqueued hroom
  | tried t ts ht hbefore htasks hacc hatt =>
    exact h.tried ht hbefore htasks hacc hatt hqueued hroom

end Ledger

theorem run_ledger (c : Config) (as : List Action) :
    Ledger c (run (step c) (construct c) as).2 :=
  run_invariant (fun _ a h _ => h.step a) _ as (construct_ledger c) (RunOk.top _ as)

/-- The paths of the calls of `add` that return true, as they are queued. -/
def granted : List Action → List (Option Bool) → List Str
  | .add path :: as, some true :: rs => slashed path :: granted as rs
  | _ :: as, _ :: rs => granted as rs
  | _, _ => []

theorem Change.accepted (h : Change c s a s') (ha : ∀ path, a ≠ .add path) :
    s'.accepted = s.accepted := by
  cases h with
  | accept path => exact absurd rfl (ha path)
  | _ => rfl

theorem accepted_eq (c : Config) : ∀ (s : State) (as : List Action),
    (run (step c) s as).2.accepted.map Prod.snd
      = s.accepted.map Prod.snd ++ granted as (run (step c) s as).1
  | s, [] => by simp [granted]
  | s, .add path :: as => by
    rw [run_cons, accepted_eq c _ as]
    by_cases hroom : s.purgeQueue.length < c.queueMax
    · simp [step, add, hroom, granted]
    · simp [step, add, hroom, granted]
  | s, .take i :: as => by
    rw [run_cons, accepted_eq c _ as, (step_change c s _).accepted (by simp)]
    rfl
  | s, .respond i httpCode buffer :: as => by
    rw [run_cons, accepted_eq c _ as, (step_change c s _).accepted (by simp)]
    rfl
  | s, .settle i :: as => by
    rw [run_cons, accepted_eq c _ as, (step_change c s _).accepted (by simp)]
    rfl
  | s, .stop :: as => by
    rw [run_cons, accepted_eq c _ as, (step_change c s _).accepted (by simp)]
    rfl
  | s, .stopReturn :: as => by
    rw [run_cons, accepted_eq c _ as, (step_change c s _).accepted (by simp)]
    rfl

/-- The task that a step purges: its request is answered by 200, and by `Key:` first. -/
def State.purging (s : State) : Action → Option Task
  | .respond i httpCode buffer =>
    match s.workers[i]? with
    | some (.requesting task) =>
      if httpCode = 200 ∧ buffer.take 4 = validResponse then some task else none
    | _ => none
  | .add _ | .take _ | .settle _ | .stop | .stopReturn => none

theorem respond_purged (s : State) (i : ℕ) (task : Task) (httpCode : ℤ) (buffer : Str) :
    (respond s i task httpCode buffer).purged = s.purged
      ++ (if httpCode = 200 ∧ buffer.take 4 = validResponse then some task else none).toList := by
  unfold respond
  by_cases hok : httpCode = 200 ∧ buffer.take 4 = validResponse
  · rw [if_pos hok, if_neg (by simp [hok])]
    rfl
  · rw [if_neg hok, if_pos (by rwa [← not_and_or])]
    exact (List.append_nil _).symm

theorem Change.purged (h : Change c s a s')
    (ha : ∀ i httpCode buffer, a ≠ .respond i httpCode buffer) : s'.purged = s.purged := by
  cases h with
  | fail i httpCode buffer | purge i buffer => exact absurd rfl (ha i _ buffer)
  | _ => rfl

theorem step_purged (c : Config) (s : State) (a : Action) :
    (step c s a).2.purged = s.purged ++ (s.purging a).toList := by
  cases a with
  | respond i httpCode buffer =>
    simp only [step, State.purging]
    rcases s.workers[i]? with _ | p
    · exact (List.append_nil _).symm
    · cases p with
      | requesting task => exact respond_purged s i task httpCode buffer
      | ready | waiting | failed | exited => exact (List.append_nil _).symm
  | add | take | settle | stop | stopReturn =>
    exact ((step_change c s _).purged (by simp)).trans (List.append_nil _).symm

/-- How many of the tasks are the occurrence's. -/
def times (o : ℕ × Str) (ts : List Task) : ℕ := (ts.map Task.occurrence).count o

/-- How many workers have a task of the occurrence. -/
def State.carriers (s : State) (o : ℕ × Str) : ℕ :=
  s.workers.countP fun w => w.task.map Task.occurrence = some o

theorem carriers_eq (s : State) (o : ℕ × Str) : s.carriers o = times o s.inFlight := by
  unfold State.carriers times State.inFlight held
  rw [List.map_filterMap, List.count, List.countP_filterMap]
  congr 1
  funext w
  rcases w.task with _ | t
  · rfl
  · simp [beq_eq_decide]

/-- In any run, each path that `add` has accepted is queued, has a worker, has been purged or has
been reported, in one place and once, and purged are those whose requests were answered so; it has
been taken for a request as often as its report says, and no more often than the tries it may
have. -/
theorem tasks_conserved (c : Config) (as : List Action) :
    let s := (run (step c) (construct c) as).2
    s.accepted.map Prod.snd = granted as (run (step c) (construct c) as).1 ∧ s.accepted.Nodup
      ∧ s.purged = incoming (fun s a => (s.purging a).toList) (step c) (construct c) as
      ∧ (∀ o ∈ s.accepted,
          times o s.purgeQueue + s.carriers o + times o s.purged + times o s.reported = 1
          ∧ (s.attempts.count o.1 : ℤ) ≤ max 1 c.tryMax
          ∧ ∀ t ∈ s.reported, t.occurrence = o → (s.attempts.count o.1 : ℤ) = t.tries)
      ∧ s.purgeQueue.length ≤ c.queueMax := by
  intro s
  have h := run_ledger c as
  have hpurged : s.purged = incoming (fun s a => (s.purging a).toList) (step c) (construct c) as :=
    run_record _ State.purged (step_purged c) _ as
  refine ⟨accepted_eq c _ as, h.accepted_nodup, hpurged,
    fun o ho => ⟨?_, ?_, fun t ht hto => ?_⟩, h.room⟩
  · rw [carriers_eq]
    have := (h.places.count_eq o).trans (List.count_eq_one_of_mem h.accepted_nodup ho)
    simpa [State.tasks, times, add_assoc] using this
  · obtain ⟨t, ht, rfl⟩ := List.mem_map.1 (h.places.mem_iff.2 ho)
    exact (h.requests t ht).le.trans (h.tries t ht)
  · rw [← hto]
    exact h.requests t (List.mem_append_right _ ht)

end Purger

end XCache
