import XCache.Proofs.PurgerStop

/-!
# The purger comes to its end

Once `stop_signal` is set no worker takes a task: it has the answer for the one it has to wait for,
a failed one to settle, and then to leave. Whatever is done, and in whatever order, less is left
(`left_step`).
-/

namespace XCache

namespace Purger

variable {c : Config} {s s' : State} {a : Action}

/-- The worker whose step it is. -/
def Action.worker : Action → Option ℕ
  | .take i | .respond i _ _ | .settle i => some i
  | .add _ | .stop | .stopReturn => none

/-- The steps a worker has before it, once the signal is set. -/
def Phase.left : Phase → ℕ
  | .requesting _ => 3
  | .failed _ => 2
  | .ready | .waiting => 1
  | .exited => 0

def State.left (s : State) : ℕ :=
  (s.workers.map Phase.left).sum + if s.stop = .returned then 0 else 1

/-- The signal is set by the first call of `stop`, which waits from there on. -/
structure Signalled (s : State) : Prop where
  signal : s.stopSignal = true
  stop : s.stop ≠ .notCalled

/-- The signal is set exactly when `stop` has been called. -/
def Announced (s : State) : Prop := s.stopSignal = true → s.stop ≠ .notCalled

theorem Change.announced (h : Change c s a s') (hs : Announced s) : Announced s' := by
  cases h with
  | signal | stopReturn => exact fun _ => by simp
  | _ => exact hs

theorem Change.signalled (h : Change c s a s') (hs : Signalled s) :
    Signalled s' ∧ s'.attempts = s.attempts := by
  cases h with
  | pop i p task rest hi hp hstop =>
    rw [hs.signal] at hstop
    simp at hstop
  | signal => exact ⟨⟨rfl, by simp⟩, rfl⟩
  | stopReturn => exact ⟨⟨hs.signal, by simp⟩, rfl⟩
  | _ => exact ⟨⟨hs.signal, hs.stop⟩, rfl⟩

/-- A worker that moves on, with nothing changed at `stop`. -/
theorem left_moved {i : ℕ} {p q : Phase} (hi : s.workers[i]? = some p) (hpq : q.left < p.left)
    (hw : s'.workers = s.workers.set i q) (hstop : s'.stop = s.stop) : s'.left < s.left := by
  have hsum := sum_move (q := q) Phase.left hi
  rw [State.left, State.left, hw, hstop]
  omega

/-- Every step that changes anything leaves less to do, unless it is a call of `add`. -/
theorem left_step (hs : Signalled s) (ha : ∀ path, a ≠ .add path) (hne : (step c s a).2 ≠ s) :
    (step c s a).2.left < s.left := by
  have hchange := step_change c s a
  cases a with
  | add path => exact absurd rfl (ha path)
  | take i =>
    simp only [step, take, hs.signal, ↓reduceIte] at hne ⊢
    split at hne
    · exact left_moved (q := .exited) (by assumption) (by simp [Phase.left]) rfl rfl
    · exact left_moved (q := .exited) (by assumption) (by simp [Phase.left]) rfl rfl
    · exact absurd rfl hne
  | respond i httpCode buffer =>
    generalize (step c s (.respond i httpCode buffer)).2 = s' at hchange hne
    cases hchange with
    | none => exact absurd rfl hne
    | fail _ _ _ task hi => exact left_moved (q := .failed task) hi (by simp [Phase.left]) rfl rfl
    | purge _ _ task hi => exact left_moved (q := .ready) hi (by simp [Phase.left]) rfl rfl
  | settle i =>
    generalize (step c s (.settle i)).2 = s' at hchange hne
    cases hchange with
    | none => exact absurd rfl hne
    | requeue _ task hi => exact left_moved (q := .ready) hi (by simp [Phase.left]) rfl rfl
    | report _ task hi => exact left_moved (q := .ready) hi (by simp [Phase.left]) rfl rfl
  | stop => exact absurd (if_pos hs.signal) hne
  | stopReturn =>
    generalize (step c s .stopReturn).2 = s' at hchange hne
    cases hchange with
    | none => exact absurd rfl hne
    | stopReturn hstop => simp [State.left, hstop]

/-- A worker that has not left goes on to another place. -/
theorem worker_leaves (c : Config) (hs : Signalled s) {i : ℕ} {p : Phase}
    (hi : s.workers[i]? = some p) (hne : p ≠ .exited) :
    ∃ a, a.worker = some i ∧ ∃ q ≠ p, (step c s a).2.workers = s.workers.set i q := by
  have htake : (take s i).workers = s.workers.set i .exited := by
    simp only [take, hs.signal, ↓reduceIte, State.moved]
  rcases p with _ | _ | task | task | _
  · refine ⟨.take i, rfl, .exited, by simp, ?_⟩
    simpa only [step, hi] using htake
  · refine ⟨.take i, rfl, .exited, by simp, ?_⟩
    simpa only [step, hi] using htake
  · refine ⟨.respond i 0 [], rfl, .failed task, by simp, ?_⟩
    simp [step, hi, respond, State.moved]
  · refine ⟨.settle i, rfl, .ready, by simp, ?_⟩
    simp only [step, hi, settle, failCallback]
    split_ifs <;> rfl
  · exact absurd rfl hne

theorem left_le (s : State) : s.left ≤ 3 * s.workers.length + 1 := by
  have hworkers : (s.workers.map Phase.left).sum ≤ 3 * s.workers.length := by
    rw [mul_comm, ← smul_eq_mul, ← List.length_map Phase.left]
    refine List.sum_le_card_nsmul _ 3 fun n hn => ?_
    obtain ⟨p, -, rfl⟩ := List.mem_map.1 hn
    rcases p <;> simp [Phase.left]
  rw [State.left]
  split <;> omega

end Purger

end XCache
