import XCache.Proofs.Purger

/-!
# What the purger leaves behind when it stops

A worker that finds `stop_signal` set leaves, whatever there is in the queue: once `stop` has
returned, the queue holds what it held when the signal was set, and the tasks in flight then that
have been put back to be tried again (`stop_leaves`).
-/

namespace XCache

namespace Purger

variable {c : Config} {s s' : State} {a : Action}

/-! ## The workers that run -/

/-- Whether a worker has not left. -/
def Phase.running (p : Phase) : Bool := p ≠ .exited

/-- `running_worker` is the number of workers that have not left. -/
structure Crew (s : State) : Prop where
  running : s.runningWorker = s.workers.countP Phase.running
  returned : s.stop = .returned → s.runningWorker = 0

theorem construct_crew (c : Config) : Crew (construct c) where
  running := by simp [construct, List.countP_replicate, Phase.running]
  returned h := by simp [construct] at h

namespace Crew

/-- No step moves a worker that has left, nor any once `stop` has returned. -/
theorem running_ne_zero (h : Crew s) {i : ℕ} {p : Phase} (hi : s.workers[i]? = some p)
    (hp : p ≠ .exited) : s.runningWorker ≠ 0 := by
  have : 0 < s.workers.countP Phase.running :=
    List.countP_pos_iff.2 ⟨p, List.mem_of_getElem? hi, by simpa [Phase.running] using hp⟩
  rw [h.running]
  omega

theorem moved (h : Crew s) {i : ℕ} {p q : Phase} (hi : s.workers[i]? = some p) (hp : p ≠ .exited)
    (hq : q ≠ .exited) (hw : s'.workers = s.workers.set i q)
    (hrun : s'.runningWorker = s.runningWorker) (hstop : s'.stop = s.stop) : Crew s' := by
  refine ⟨?_, fun hr => absurd (h.returned (hstop ▸ hr)) (h.running_ne_zero hi hp)⟩
  have hm := countP_move (P := Phase.running) (q := q) hi
  rw [if_pos (by simpa [Phase.running] using hp), if_pos (by simpa [Phase.running] using hq)] at hm
  rw [hrun, h.running, hw]
  omega

theorem step (h : Crew s) (c : Config) (a : Action) : Crew (step c s a).2 := by
  have hchange := step_change c s a
  generalize (Purger.step c s a).2 = s' at hchange
  cases hchange with
  | none => exact h
  | accept => exact ⟨h.running, h.returned⟩
  | wait i p hi hp => exact h.moved (q := .waiting) hi hp.ne_exited (by simp) rfl rfl rfl
  | quit i p hi hp =>
    refine ⟨?_, fun hr => absurd (h.returned hr) (h.running_ne_zero hi hp.ne_exited)⟩
    have hm := countP_move (P := Phase.running) (q := .exited) hi
    rw [if_pos (by simpa [Phase.running] using hp.ne_exited),
      if_neg (by simp [Phase.running])] at hm
    have := h.running
    simp only [State.moved]
    omega
  | pop i p task rest hi hp =>
    exact h.moved (q := .requesting task.tried) hi hp.ne_exited (by simp) rfl rfl rfl
  | fail i httpCode buffer task hi =>
    exact h.moved (q := .failed task) hi (by simp) (by simp) rfl rfl rfl
  | purge i buffer task hi => exact h.moved (q := .ready) hi (by simp) (by simp) rfl rfl rfl
  | requeue i task hi => exact h.moved (q := .ready) hi (by simp) (by simp) rfl rfl rfl
  | report i task hi => exact h.moved (q := .ready) hi (by simp) (by simp) rfl rfl rfl
  | signal => exact ⟨h.running, fun hr => by simp at hr⟩
  | stopReturn hstop hrun => exact ⟨h.running, fun _ => hrun⟩

theorem inFlight_eq_nil (h : Crew s) (hrun : s.runningWorker = 0) : s.inFlight = [] := by
  refine List.filterMap_eq_nil_iff.2 fun w hw => ?_
  obtain ⟨i, hi⟩ := List.mem_iff_getElem?.1 hw
  obtain rfl : w = .exited := by
    by_contra hne
    exact h.running_ne_zero hi hne hrun
  rfl

end Crew

theorem run_crew (c : Config) (s : State) (as : List Action) (h : Crew s) :
    Crew (run (step c) s as).2 :=
  run_invariant (fun _ a h _ => h.step c a) s as h (RunOk.top s as)

/-! ## After the signal -/

/-- What has become of the queue of `s₁` and of the tasks in flight there, `stop_signal` being
set. -/
structure Drained (c : Config) (s₁ s : State) : Prop where
  signal : s.stopSignal = true
  accepted : s.accepted = s₁.accepted
  settled : ∃ requeued purged reported : List Task,
    s.purgeQueue = s₁.purgeQueue ++ requeued ∧ s.purged = s₁.purged ++ purged
      ∧ s.reported = s₁.reported ++ reported
      ∧ (s.inFlight ++ requeued ++ purged ++ reported).Perm s₁.inFlight
      ∧ ∀ t ∈ requeued, t.tries < c.tryMax

theorem stop_drained (c : Config) (s : State) : Drained c s (stop s) := by
  unfold stop
  split
  · exact ⟨by assumption, rfl, [], [], [], by simp⟩
  · exact ⟨rfl, rfl, [], [], [], by simp [State.inFlight]⟩

theorem Drained.step {s₁ : State} (h : Drained c s₁ s) (ha : ∀ path, a ≠ .add path) :
    Drained c s₁ (step c s a).2 := by
  have hchange := step_change c s a
  generalize (Purger.step c s a).2 = s' at hchange
  obtain ⟨hsig, hacc, rq, pd, rp, hq, hp, hr, hperm, htries⟩ := h
  have hstay : ∀ {i p q}, s.workers[i]? = some p → q.task = p.task →
      ((s.moved i q).inFlight ++ rq ++ pd ++ rp).Perm s₁.inFlight := fun hi hpq =>
    ((((held_stay hi hpq).append_right _).append_right _).append_right _).trans hperm
  have hrelease : ∀ {i p t}, s.workers[i]? = some p → p.task = some t →
      (t :: ((s.moved i .ready).inFlight ++ rq ++ pd ++ rp)).Perm s₁.inFlight := fun hi hpt =>
    ((((held_release hi hpt rfl).append_right _).append_right _).append_right _).trans hperm
  cases hchange with
  | none => exact ⟨hsig, hacc, rq, pd, rp, hq, hp, hr, hperm, htries⟩
  | accept path => exact absurd rfl (ha path)
  | wait i p hi hpi => exact ⟨hsig, hacc, rq, pd, rp, hq, hp, hr, hstay hi hpi.task.symm, htries⟩
  | quit i p hi hpi => exact ⟨hsig, hacc, rq, pd, rp, hq, hp, hr, hstay hi hpi.task.symm, htries⟩
  | pop i p task rest hi hpi hstop => simp [hsig] at hstop
  | fail i httpCode buffer task hi =>
    exact ⟨hsig, hacc, rq, pd, rp, hq, hp, hr, hstay hi rfl, htries⟩
  | purge i buffer task hi =>
    refine ⟨hsig, hacc, rq, pd ++ [task], rp, hq, ?_, hr, ?_, htries⟩
    · simp [hp]
    · have hmid := @List.perm_middle _ task ((s.moved i .ready).inFlight ++ rq ++ pd) rp
      refine .trans ?_ (hrelease hi rfl)
      simp only [List.append_assoc, List.cons_append, List.nil_append] at hmid ⊢
      exact hmid
  | requeue i task hi ht =>
    refine ⟨hsig, hacc, rq ++ [task], pd, rp, ?_, hp, hr, ?_, ?_⟩
    · simp [hq]
    · have hmid := @List.perm_middle _ task ((s.moved i .ready).inFlight ++ rq) (pd ++ rp)
      refine .trans ?_ (hrelease hi rfl)
      simp only [List.append_assoc, List.cons_append, List.nil_append] at hmid ⊢
      exact hmid
    · intro t htmem
      rcases List.mem_append.1 htmem with htmem | htmem
      · exact htries t htmem
      · obtain rfl := List.mem_singleton.1 htmem
        exact ht
  | report i task hi =>
    refine ⟨hsig, hacc, rq, pd, rp ++ [task], hq, hp, ?_, ?_, htries⟩
    · simp [hr, failCallback]
    · have hmid := @List.perm_middle _ task ((s.moved i .ready).inFlight ++ rq ++ pd ++ rp) []
      refine .trans ?_ (hrelease hi rfl)
      simp only [List.append_assoc, List.append_nil] at hmid ⊢
      exact hmid
  | signal hstop => simp [hsig] at hstop
  | stopReturn => exact ⟨hsig, hacc, rq, pd, rp, hq, hp, hr, hperm, htries⟩

/-- Once `stop` has returned, with no call of `add` since it set the signal, nothing is in flight;
the queue holds what it held at the signal, and behind that those tasks in flight then whose request
failed and that may be tried again. Of the paths accepted each is there, has been purged or has been
reported, once. -/
theorem stop_leaves (c : Config) (before after : List Action)
    (hadd : ∀ a ∈ after, ∀ path, a ≠ .add path) :
    let s₁ := (run (step c) (construct c) before).2
    let s := (run (step c) s₁ (.stop :: after)).2
    s.stop = .returned →
      s.inFlight = []
      ∧ (∃ requeued purged reported : List Task,
          s.purgeQueue = s₁.purgeQueue ++ requeued ∧ s.purged = s₁.purged ++ purged
            ∧ s.reported = s₁.reported ++ reported
            ∧ (requeued ++ purged ++ reported).Perm s₁.inFlight
            ∧ ∀ t ∈ requeued, t.tries < c.tryMax)
      ∧ s.accepted = s₁.accepted
      ∧ ∀ o ∈ s.accepted, times o s.purgeQueue + times o s.purged + times o s.reported = 1 := by
  intro s₁ s hret
  have hledger : Ledger c s :=
    run_invariant (fun _ a h _ => h.step a) s₁ _ (run_ledger c before) (RunOk.top _ _)
  have hcrew : Crew s := run_crew c s₁ _ (run_crew c _ before (construct_crew c))
  have hnone : s.inFlight = [] := hcrew.inFlight_eq_nil (hcrew.returned hret)
  have hdrained : Drained c s₁ s :=
    run_invariant (fun _ _ h ha => h.step ha) _ after (stop_drained c s₁)
      (RunOk.of_inputs _ after hadd)
  obtain ⟨rq, pd, rp, hq, hp, hr, hperm, htries⟩ := hdrained.settled
  rw [hnone, List.nil_append] at hperm
  refine ⟨hnone, ⟨rq, pd, rp, hq, hp, hr, hperm, htries⟩, hdrained.accepted, fun o ho => ?_⟩
  have := (hledger.places.count_eq o).trans
    (List.count_eq_one_of_mem hledger.accepted_nodup ho)
  simpa [State.tasks, times, hnone, add_assoc] using this

theorem stop_leaves_a :
    let c : Config := ⟨1024, 1, 3⟩
    let s₁ := (run (step c) (construct c) [.add [97]]).2
    let s := (run (step c) s₁ [.stop, .take 0, .stopReturn]).2
    s.inFlight = []
      ∧ (∃ requeued purged reported : List Task,
          s.purgeQueue = s₁.purgeQueue ++ requeued ∧ s.purged = s₁.purged ++ purged
            ∧ s.reported = s₁.reported ++ reported
            ∧ (requeued ++ purged ++ reported).Perm s₁.inFlight
            ∧ ∀ t ∈ requeued, t.tries < c.tryMax)
      ∧ s.accepted = s₁.accepted
      ∧ ∀ o ∈ s.accepted, times o s.purgeQueue + times o s.purged + times o s.reported = 1 :=
  stop_leaves ⟨1024, 1, 3⟩ [.add [97]] [.take 0, .stopReturn] (by simp) (by decide)

/-- A path accepted and still queued when `stop` sets the signal is neither purged nor reported:
the one worker leaves, and `stop` returns. -/
theorem stop_drops :
    ¬ ∀ (c : Config) (before after : List Action), (∀ a ∈ after, ∀ path, a ≠ .add path) →
      let s := (run (step c) (run (step c) (construct c) before).2 (.stop :: after)).2
      s.stop = .returned →
        s.purgeQueue = [] ∧ ∀ o ∈ s.accepted, times o s.purged = 1 ∨ times o s.reported = 1 := by
  intro h
  have := (h ⟨1024, 1, 3⟩ [.add [97]] [.take 0, .stopReturn] (by simp) (by decide)).1
  revert this
  decide

end Purger

end XCache
