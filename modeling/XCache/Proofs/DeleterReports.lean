import XCache.Proofs.AsyncDeleter

/-!
# What the deleter reports

The handler calls `fail_callback` when `fs::remove_all` returns zero. But zero is the count for a
path that does not exist; a removal that ends in an error returns `static_cast<uintmax_t>(-1)` and
sets `ec`. So it reports the paths that were not there, each once (`Traced.failed`), and no error:
the reports are right exactly if no removal ends in an error (`reports_right_iff`).
-/

namespace XCache

namespace AsyncDeleter

/-- `fs::remove_all` returns a count, with `ec` cleared, or all ones, with `ec` set. -/
def Removal.Contract : Removal → Prop
  | .returned count ec => (count < 2 ^ 64 - 1 ∧ ec = 0) ∨ (count = 2 ^ 64 - 1 ∧ ec ≠ 0)
  | .thrown => False

/-- The removal ends in an error. -/
def Removal.Erred : Removal → Prop
  | .returned _ ec => ec ≠ 0
  | .thrown => False

/-- The call of `fail_callback` after a removal, if there is one. -/
def Removal.call : Job × Removal → Option (Job × ℤ)
  | (j, .returned 0 ec) => some (j, ec)
  | (_, .returned _ _) | (_, .thrown) => none

/-- The removals that end in a run. -/
def removals (s : State) (as : List Action) : List (Job × Removal) :=
  incoming (fun s a => (s.ending a).toList) step s as

/-- The calls of `fail_callback` for a job, out of all of them, are right: one with the error code
if its removal ended in an error, none if it removed something. -/
def Reported (calls : List (Job × ℤ)) : Job × Removal → Prop
  | (j, .returned count ec) =>
    (ec ≠ 0 → calls.filter (fun f => f.1 = j) = [(j, ec)])
      ∧ (ec = 0 → 0 < count → calls.filter (fun f => f.1 = j) = [])
  | (_, .thrown) => True

/-- The job whose removal has ended, and that is not counted off. -/
def Phase.ended : Phase → Option Job
  | .removed j => some j
  | .idle | .removing _ | .locking | .notifying | .unlocking | .exited => none

variable {s : State} {os : List (Job × Removal)} {i : ℕ} {p q : Phase} {j : Job} {r : Removal}

/-- A job whose removal has ended is one that its thread has not counted off. -/
theorem job_of_ended (h : p.ended = some j) : p.job = some j := by
  cases p with
  | removed j' => exact h
  | idle | removing | locking | notifying | unlocking | exited => simp [Phase.ended] at h

/-- The state is what the removals `os` have made it. -/
structure Traced (s : State) (os : List (Job × Removal)) : Prop where
  removed : s.removed = os.map Prod.fst
  failed : s.failed = os.filterMap Removal.call
  once : s.removed.Perm (held Phase.ended s.workers ++ s.decremented)

theorem start_traced (threads : ℕ) : Traced (start threads) [] where
  removed := rfl
  failed := rfl
  once := by
    have hnone : held Phase.ended (List.replicate threads .idle) = [] := held_replicate rfl
    simp [start, hnone]

namespace Traced

/-- A step that is not the end of a removal. -/
theorem moved (h : Traced s os) (hi : s.workers[i]? = some p) (hpq : q.ended = p.ended) :
    Traced (s.moved i q) os :=
  ⟨h.removed, h.failed, h.once.trans ((held_stay hi hpq).symm.append_right _)⟩

theorem removeAll (h : Traced s os) (hi : s.workers[i]? = some (.removing j)) (r : Removal) :
    Traced (s.removeAll i j r) (os ++ [(j, r)]) where
  removed := by
    show s.removed ++ [j] = _
    rw [h.removed, List.map_append, List.map_singleton]
  failed := by
    rw [List.filterMap_append, ← h.failed]
    rcases r with ⟨_ | count, ec⟩ | _
    · rfl
    · exact (List.append_nil _).symm
    · exact (List.append_nil _).symm
  once := by
    have htake : (held Phase.ended (s.workers.set i (.removed j))).Perm
        (j :: held Phase.ended s.workers) := held_take hi rfl rfl
    refine (List.perm_append_singleton j s.removed).trans ?_
    exact (h.once.cons j).trans (htake.append_right _).symm

theorem decrement (h : Traced s os) (hi : s.workers[i]? = some (.removed j)) :
    Traced (s.decrement i j) os where
  removed := h.removed
  failed := h.failed
  once := by
    have hrelease : (j :: held Phase.ended (s.decrement i j).workers).Perm
        (held Phase.ended s.workers) := by
      refine held_release hi rfl ?_
      split <;> rfl
    refine h.once.trans ?_
    rw [List.perm_iff_count]
    intro j'
    have := hrelease.count_eq j'
    simp only [State.decrement, List.count_append, List.count_cons, List.count_nil] at this ⊢
    omega

theorem work (h : Traced s os) (i k : ℕ) (r : Removal) :
    Traced (s.work i k r) (os ++ (s.ending (.work i k r)).toList) := by
  simp only [State.ending]
  unfold State.work
  rcases hi : s.workers[i]? with _ | p
  · simpa using h
  · cases p with
    | idle =>
      simp only [Option.toList_none, List.append_nil]
      split
      · exact h.moved hi rfl
      · unfold State.take
        split
        · exact ⟨h.removed, h.failed, (h.moved (q := .removing _) hi rfl).once⟩
        · exact h
    | removing j => exact h.removeAll hi r
    | removed j =>
      simp only [Option.toList_none, List.append_nil]
      exact h.decrement hi
    | locking =>
      simp only [Option.toList_none, List.append_nil]
      unfold State.lock
      split
      · exact ⟨h.removed, h.failed, (h.moved (q := .notifying) hi rfl).once⟩
      · exact h
    | notifying =>
      simp only [Option.toList_none, List.append_nil]
      exact ⟨h.removed, h.failed, (h.moved (q := .unlocking) hi rfl).once⟩
    | unlocking =>
      simp only [Option.toList_none, List.append_nil]
      exact ⟨h.removed, h.failed, (h.moved (q := .idle) hi rfl).once⟩
    | exited => simpa using h

theorem step (h : Traced s os) (a : Action) :
    Traced (step s a).2 (os ++ (s.ending a).toList) := by
  cases a with
  | work i k r => exact h.work i k r
  | submit file => simpa [State.ending] using ⟨h.removed, h.failed, h.once⟩
  | post k =>
    simp only [State.ending, Option.toList_none, List.append_nil, AsyncDeleter.step, State.post]
    split
    · exact ⟨h.removed, h.failed, h.once⟩
    · exact h
  | runOut =>
    simp only [State.ending, Option.toList_none, List.append_nil, AsyncDeleter.step, State.runOut]
    split
    · exact ⟨h.removed, h.failed, h.once⟩
    · exact h
  | stop =>
    obtain ⟨lock, guarded, stopped, stop, hstop⟩ := stopStep_frame s
    simp only [State.ending, Option.toList_none, List.append_nil, AsyncDeleter.step, hstop]
    exact ⟨h.removed, h.failed, h.once⟩
  | wake =>
    simp only [State.ending, Option.toList_none, List.append_nil, AsyncDeleter.step, State.wake]
    split
    · exact ⟨h.removed, h.failed, h.once⟩
    · exact h

/-- A run adds the removals that end in it. -/
theorem run (as : List Action) : ∀ {s : State} {os : List (Job × Removal)}, Traced s os →
    Traced (run AsyncDeleter.step s as).2 (os ++ removals s as) := by
  induction as with
  | nil =>
    intro s os h
    rw [removals, incoming, List.append_nil]
    exact h
  | cons a as ih =>
    intro s os h
    rw [removals, incoming, ← List.append_assoc]
    exact ih (h.step a)

/-! ## Right reports -/

/-- No job is removed twice. -/
theorem nodup (h : Traced s os) (ha : Accounts s) : (os.map Prod.fst).Nodup := by
  have hsub : s.submitted.Nodup :=
    List.Nodup.of_map Job.ticket (by rw [ha.tickets]; exact List.nodup_range)
  have hall : (s.pending ++ s.decremented).Nodup := ha.jobs.nodup_iff.2 hsub
  rw [← h.removed, h.once.nodup_iff]
  refine hall.sublist (List.Sublist.append ?_ (List.Sublist.refl _))
  exact (held_sublist (fun _ _ => job_of_ended) _).trans (List.sublist_append_right _ _)

/-- Each submission has ended one removal, once all are done. -/
theorem perm_submitted (h : Traced s os) (ha : Accounts s)
    (hdone : ∀ j ∈ s.submitted, j ∈ s.removed) : (os.map Prod.fst).Perm s.submitted := by
  have hsub : s.submitted.Nodup :=
    List.Nodup.of_map Job.ticket (by rw [ha.tickets]; exact List.nodup_range)
  rw [List.perm_ext_iff_of_nodup (h.nodup ha) hsub]
  intro j
  rw [← h.removed]
  refine ⟨fun hj => ha.jobs.mem_iff.1 ?_, hdone j⟩
  rcases List.mem_append.1 (h.once.mem_iff.1 hj) with hj | hj
  · have hjob := (held_sublist (fun _ _ => job_of_ended) _).mem hj
    exact List.mem_append_left _ (List.mem_append_right _ hjob)
  · exact List.mem_append_right _ hj

theorem mem_failed (h : Traced s os) {ec : ℤ} :
    (j, ec) ∈ s.failed ↔ (j, .returned 0 ec) ∈ os := by
  rw [h.failed, List.mem_filterMap]
  refine ⟨fun ⟨⟨j', r⟩, ho, hcall⟩ => ?_, fun ho => ⟨_, ho, rfl⟩⟩
  rcases r with ⟨_ | count, ec'⟩ | _
  · obtain ⟨rfl, rfl⟩ : j' = j ∧ ec' = ec := by simpa [Removal.call] using hcall
    exact ho
  · simp [Removal.call] at hcall
  · simp [Removal.call] at hcall

/-- The reports are right exactly if no removal has ended in an error. -/
theorem reported_iff (h : Traced s os) (ha : Accounts s) (hos : ∀ o ∈ os, o.2.Contract) :
    (∀ o ∈ os, Reported s.failed o) ↔ ∀ o ∈ os, ¬ o.2.Erred := by
  refine forall₂_congr fun o ho => ?_
  obtain ⟨j, r⟩ := o
  rcases r with ⟨count, ec⟩ | _
  · refine ⟨fun hrep herr => ?_, fun hok => ⟨fun herr => absurd herr hok, fun _ hcount => ?_⟩⟩
    · -- a call for a removal that returned zero has no error code
      have hmem : (j, ec) ∈ s.failed.filter fun f => f.1 = j := by
        rw [hrep.1 herr]
        exact List.mem_cons_self
      have hzero := h.mem_failed.1 (List.mem_filter.1 hmem).1
      rcases hos _ hzero with ⟨-, hec⟩ | ⟨hcount, -⟩
      · exact herr hec
      · omega
    · rw [List.filter_eq_nil_iff]
      rintro ⟨j', ec'⟩ hf hj
      obtain rfl : j' = j := by simpa using hj
      have hsame := List.inj_on_of_nodup_map (h.nodup ha) (h.mem_failed.1 hf) ho rfl
      simp only [Prod.mk.injEq, Removal.returned.injEq, true_and] at hsame
      omega
  · exact (hos _ ho).elim

end Traced

/-- In any run, of any number of threads, by whose end all jobs have run: the jobs are those of the
calls of `submit`, each has ended one removal, and the reports are right exactly if no removal has
ended in an error. -/
theorem reports_right_iff (threads : ℕ) (as : List Action)
    (hcontract : ∀ o ∈ removals (start threads) as, o.2.Contract)
    (hdone : ∀ j ∈ (run step (start threads) as).2.submitted,
      j ∈ (run step (start threads) as).2.removed) :
    (run step (start threads) as).2.submitted.map Job.file = as.flatMap Action.submits
      ∧ ((removals (start threads) as).map Prod.fst).Perm (run step (start threads) as).2.submitted
      ∧ ((∀ o ∈ removals (start threads) as, Reported (run step (start threads) as).2.failed o)
        ↔ ∀ o ∈ removals (start threads) as, ¬ o.2.Erred) := by
  have haccounts : Accounts (run step (start threads) as).2 :=
    run_invariant (fun _ a h _ => h.step a) _ as (start_accounts threads) (RunOk.top _ as)
  have htraced : Traced (run step (start threads) as).2 (removals (start threads) as) :=
    (start_traced threads).run as
  exact ⟨run_submitted _ as, htraced.perm_submitted haccounts hdone,
    htraced.reported_iff haccounts hcontract⟩

/-- A path that is removed. -/
theorem reports_right_iff_one :
    let as : List Action := [.submit [97], .post 0, .work 0 0 .thrown, .work 0 0 (.returned 1 0)]
    (run step (start 1) as).2.submitted.map Job.file = as.flatMap Action.submits
      ∧ ((removals (start 1) as).map Prod.fst).Perm (run step (start 1) as).2.submitted
      ∧ ((∀ o ∈ removals (start 1) as, Reported (run step (start 1) as).2.failed o)
        ↔ ∀ o ∈ removals (start 1) as, ¬ o.2.Erred) :=
  reports_right_iff 1 _ (by simp [removals, incoming, State.ending, step, State.submit, State.post,
    State.work, State.take, State.moved, start, Removal.Contract]) (by decide)

/-- A removal that is not permitted is not reported. -/
theorem error_unreported :
    ∃ o ∈ removals (start 1)
        [.submit [97], .post 0, .work 0 0 .thrown, .work 0 0 (.returned (2 ^ 64 - 1) 13)],
      o.2.Contract ∧ ¬ Reported (run step (start 1)
        [.submit [97], .post 0, .work 0 0 .thrown,
          .work 0 0 (.returned (2 ^ 64 - 1) 13)]).2.failed o := by
  refine ⟨(⟨0, [97]⟩, .returned (2 ^ 64 - 1) 13), ?_, .inr ⟨rfl, by decide⟩, fun h => ?_⟩
  · simp [removals, incoming, State.ending, step, State.submit, State.post, State.work, State.take,
      State.moved, start]
  · have hcalls := h.1 (by decide)
    simp [step, State.submit, State.post, State.work, State.take, State.moved, State.removeAll,
      start] at hcalls

end AsyncDeleter

end XCache
