import XCache.Proofs.PurgerShutdown

/-!
# The purger gets through its queue

A task has only so many requests before it (`Task.rest`), and each request is a few steps of the
worker that sends it, so the workers' steps bring down what there is to do (`step_work`). A worker
that cannot go on waits at an empty queue (`worker_goes`).
-/

namespace XCache

namespace Purger

variable {c : Config} {s s' : State} {a : Action}

/-- The requests a queued task has before it, at most. -/
def Task.rest (c : Config) (t : Task) : ℕ := (max 1 (c.tryMax - t.tries)).toNat

/-- What is to do for a task that has failed. -/
def Task.retry (c : Config) (t : Task) : ℕ := if t.tries < c.tryMax then 4 * t.rest c else 0

/-- What a worker has to do before it waits. -/
def Phase.work (c : Config) : Phase → ℕ
  | .waiting | .exited => 0
  | .ready => 1
  | .failed t => t.retry c + 2
  | .requesting t => t.retry c + 3

def State.work (c : Config) (s : State) : ℕ :=
  (s.purgeQueue.map fun t => 4 * t.rest c).sum + (s.workers.map (Phase.work c)).sum

theorem tried_lt (c : Config) (t : Task) : t.tried.retry c + 3 < 4 * t.rest c := by
  have hrest : (t.rest c : ℤ) = max 1 (c.tryMax - t.tries) :=
    Int.toNat_of_nonneg (le_max_of_le_left Int.one_nonneg)
  have htried : (t.tried.rest c : ℤ) = max 1 (c.tryMax - (t.tries + 1)) :=
    Int.toNat_of_nonneg (le_max_of_le_left Int.one_nonneg)
  have htries : t.tried.tries = t.tries + 1 := rfl
  unfold Task.retry
  split_ifs with hretry
  · rw [htries] at hretry
    omega
  · omega

/-- A worker goes on, and takes nothing from the queue. -/
theorem work_moved {i : ℕ} {p q : Phase} (hi : s.workers[i]? = some p)
    (hw : s'.workers = s.workers.set i q) {l : List Task}
    (hq : s'.purgeQueue = s.purgeQueue ++ l)
    (hpq : (l.map fun t => 4 * t.rest c).sum + q.work c < p.work c) : s'.work c < s.work c := by
  have hsum := sum_move (q := q) (Phase.work c) hi
  rw [State.work, State.work, hw, hq, List.map_append, List.sum_append]
  omega

/-- The section of a worker, without the signal. -/
theorem take_cases (hstop : s.stopSignal = false) (i : ℕ) :
    (s.purgeQueue = [] ∧ take s i = s.moved i .waiting)
      ∨ ∃ task rest, s.purgeQueue = task :: rest
        ∧ take s i = { s.moved i (.requesting task.tried) with
          purgeQueue := rest
          attempts := s.attempts ++ [task.ticket] } := by
  unfold take
  rw [if_neg (by simp [hstop])]
  rcases s.purgeQueue with _ | ⟨task, rest⟩
  · exact .inl ⟨rfl, rfl⟩
  · exact .inr ⟨task, rest, rfl, rfl⟩

theorem take_work {i : ℕ} {p : Phase} (hi : s.workers[i]? = some p) (hp : p.Idle)
    (hstop : s.stopSignal = false) (hne : take s i ≠ s) : (take s i).work c < s.work c := by
  obtain ⟨hq, heq⟩ | ⟨task, rest, hq, heq⟩ := take_cases hstop i
  · rcases hp with rfl | rfl
    · rw [heq]
      exact work_moved (q := .waiting) (l := []) hi rfl (List.append_nil _).symm
        (by simp [Phase.work])
    · refine absurd ?_ hne
      obtain ⟨hlt, hget⟩ := List.getElem?_eq_some_iff.1 hi
      rw [heq, State.moved, ← hget, List.set_getElem_self]
  · have hsum := sum_move (q := .requesting task.tried) (Phase.work c) hi
    have hlt := tried_lt c task
    rw [heq, State.work, State.work, hq, List.map_cons, List.sum_cons]
    simp only [Phase.work, State.moved] at hsum ⊢
    omega

/-- The workers' steps leave less to do, as long as there is no signal. -/
theorem step_work (ha : a.worker ≠ none) (hstop : s.stopSignal = false) (hne : (step c s a).2 ≠ s) :
    (step c s a).2.work c < s.work c := by
  have hchange := step_change c s a
  cases a with
  | add | stop | stopReturn => exact absurd rfl ha
  | take i =>
    simp only [step] at hne ⊢
    split at hne
    · exact take_work (by assumption) (.inl rfl) hstop hne
    · exact take_work (by assumption) (.inr rfl) hstop hne
    · exact absurd rfl hne
  | respond i httpCode buffer =>
    generalize (step c s (.respond i httpCode buffer)).2 = s' at hchange hne
    cases hchange with
    | none => exact absurd rfl hne
    | fail _ _ _ task hi =>
      exact work_moved (q := .failed task) (l := []) hi rfl (List.append_nil _).symm
        (by simp [Phase.work])
    | purge _ _ task hi =>
      exact work_moved (q := .ready) (l := []) hi rfl (List.append_nil _).symm
        (by simp [Phase.work])
  | settle i =>
    generalize (step c s (.settle i)).2 = s' at hchange hne
    cases hchange with
    | none => exact absurd rfl hne
    | requeue _ task hi htries =>
      exact work_moved (q := .ready) (l := [task]) hi rfl rfl
        (by simp [Phase.work, Task.retry, htries])
    | report _ task hi =>
      exact work_moved (q := .ready) (l := []) hi rfl (List.append_nil _).symm
        (by simp [Phase.work])

/-! ## Where no worker can go on -/

/-- No worker has left before the signal. -/
def Present (s : State) : Prop := s.stopSignal = false → .exited ∉ s.workers

theorem present_moved (h : Present s) {i : ℕ} {q : Phase} (hq : q ≠ .exited)
    (hw : s'.workers = s.workers.set i q) (hstop : s'.stopSignal = s.stopSignal) : Present s' := by
  intro hno hmem
  rw [hw] at hmem
  rcases List.mem_or_eq_of_mem_set hmem with hmem | heq
  · exact h (hstop ▸ hno) hmem
  · exact hq heq.symm

theorem take_present (h : Present s) (i : ℕ) : Present (take s i) := by
  by_cases hstop : s.stopSignal = true
  · have hsame : (take s i).stopSignal = s.stopSignal := by
      rw [take, if_pos hstop]
      rfl
    intro hno
    rw [hsame, hstop] at hno
    cases hno
  · obtain ⟨-, heq⟩ | ⟨task, rest, -, heq⟩ := take_cases (by simpa using hstop) i
    · rw [heq]
      exact present_moved h (q := .waiting) (by simp) rfl rfl
    · rw [heq]
      exact present_moved h (q := .requesting task.tried) (by simp) rfl rfl

theorem Change.present (h : Change c s a s') (ha : ∀ i, a ≠ .take i) (hs : Present s) :
    Present s' := by
  cases h with
  | none | accept | stopReturn => exact hs
  | signal => exact fun hno => by simp at hno
  | wait i | quit i | pop i => exact absurd rfl (ha i)
  | fail i _ _ task hi => exact present_moved hs (q := .failed task) (by simp) rfl rfl
  | purge i _ task hi => exact present_moved hs (q := .ready) (by simp) rfl rfl
  | requeue i task hi => exact present_moved hs (q := .ready) (by simp) rfl rfl
  | report i task hi => exact present_moved hs (q := .ready) (by simp) rfl rfl

theorem step_present (c : Config) (h : Present s) (a : Action) : Present (step c s a).2 := by
  by_cases ha : ∀ i, a ≠ .take i
  · exact (step_change c s a).present ha h
  · obtain ⟨i, ha⟩ := not_forall.1 ha
    obtain rfl := not_not.1 ha
    simp only [step]
    split
    · exact take_present h i
    · exact take_present h i
    · exact h

/-- A worker goes on to another place, unless it waits at an empty queue. -/
theorem worker_goes (c : Config) (hstop : s.stopSignal = false) {i : ℕ} {p : Phase}
    (hi : s.workers[i]? = some p) (hp : p ≠ .exited) :
    (p = .waiting ∧ s.purgeQueue = [])
      ∨ ∃ a, a.worker = some i ∧ ∃ q ≠ p, (step c s a).2.workers = s.workers.set i q := by
  rcases p with _ | _ | task | task | _
  · have hstep : (step c s (.take i)).2 = take s i := by simp only [step, hi]
    obtain ⟨-, heq⟩ | ⟨task, rest, -, heq⟩ := take_cases hstop i
    · exact .inr ⟨.take i, rfl, .waiting, by simp, by rw [hstep, heq]; rfl⟩
    · exact .inr ⟨.take i, rfl, .requesting task.tried, by simp, by rw [hstep, heq]; rfl⟩
  · have hstep : (step c s (.take i)).2 = take s i := by simp only [step, hi]
    obtain ⟨hq, -⟩ | ⟨task, rest, -, heq⟩ := take_cases hstop i
    · exact .inl ⟨rfl, hq⟩
    · exact .inr ⟨.take i, rfl, .requesting task.tried, by simp, by rw [hstep, heq]; rfl⟩
  · refine .inr ⟨.respond i 0 [], rfl, .failed task, by simp, ?_⟩
    simp [step, hi, respond, State.moved]
  · refine .inr ⟨.settle i, rfl, .ready, by simp, ?_⟩
    simp only [step, hi, settle, failCallback]
    split_ifs <;> rfl
  · exact absurd rfl hp

/-! ## How much there is to do -/

theorem rest_le {t : Task} (h : 0 ≤ t.tries) : t.rest c ≤ (max 1 c.tryMax).toNat := by
  unfold Task.rest
  omega

theorem retry_le {t : Task} (h : 0 ≤ t.tries) : t.retry c ≤ 4 * (max 1 c.tryMax).toNat := by
  have hrest := rest_le (c := c) h
  unfold Task.retry
  split <;> omega

theorem workers_le (c : Config) {k : ℕ} : ∀ (ws : List Phase),
    (∀ t ∈ held Phase.task ws, t.retry c ≤ k) →
      (ws.map (Phase.work c)).sum ≤ 3 * ws.length + k * (held Phase.task ws).length
  | [], _ => by simp
  | p :: ws, h => by
    have hpart : ∀ t ∈ held Phase.task ws, t.retry c ≤ k := fun t ht =>
      h t ((List.sublist_cons_self p ws).filterMap Phase.task |>.subset ht)
    have ih := workers_le c ws hpart
    have hp : p.work c ≤ 3 + k * p.task.toList.length := by
      rcases p with _ | _ | t | t | _
      case requesting | failed =>
        have ht : t.retry c ≤ k := h t (by simp [held, Phase.task])
        simp only [Phase.work, Phase.task, Option.toList_some, List.length_singleton]
        omega
      all_goals simp [Phase.work, Phase.task]
    have hheld : (held Phase.task (p :: ws)).length
        = p.task.toList.length + (held Phase.task ws).length := by
      unfold held
      rcases htask : p.task with _ | t
      · simp [htask]
      · simp [htask, Nat.add_comm]
    rw [hheld, List.map_cons, List.sum_cons, List.length_cons, Nat.mul_add k]
    omega

theorem work_le (c : Config) (htries : ∀ t ∈ s.tasks, 0 ≤ t.tries) :
    s.work c ≤ 4 * (max 1 c.tryMax).toNat * (s.purgeQueue.length + s.inFlight.length)
      + 3 * s.workers.length := by
  have hqueue : (s.purgeQueue.map fun t => 4 * t.rest c).sum
      ≤ s.purgeQueue.length * (4 * (max 1 c.tryMax).toNat) := by
    rw [← smul_eq_mul, ← List.length_map fun t => 4 * t.rest c]
    refine List.sum_le_card_nsmul _ _ fun n hn => ?_
    obtain ⟨t, ht, rfl⟩ := List.mem_map.1 hn
    have hrest := rest_le (c := c) (htries t (by simp [State.tasks, ht]))
    omega
  have hworkers := workers_le c (k := 4 * (max 1 c.tryMax).toNat) s.workers fun t ht =>
    retry_le (htries t (by simp [State.tasks, State.inFlight, ht]))
  rw [State.work, Nat.mul_add, Nat.mul_comm _ s.purgeQueue.length, State.inFlight]
  omega

theorem Change.length_workers (h : Change c s a s') : s'.workers.length = s.workers.length := by
  cases h <;> simp [State.moved, failCallback]

/-- Until the next `stop` the signal stays as it is. -/
theorem Change.worker_signal (h : Change c s a s') (ha : a.worker ≠ .none) :
    s'.stopSignal = s.stopSignal := by
  cases h with
  | signal | stopReturn => exact absurd rfl ha
  | _ => rfl

end Purger

end XCache
