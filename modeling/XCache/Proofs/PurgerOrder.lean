import XCache.Proofs.Purger

/-!
# The order in which the tasks are taken

`purge_queue` is a queue: what has been taken from it and what is in it, one after the other, only
ever grows at its end (`Change.line`), whichever worker does what. A retry puts a ticket there that
has been there before, and `add` the next new one, so the first requests come in the order the paths
were accepted in (`Ordered`).
-/

namespace XCache

namespace Purger

variable {c : Config} {s s' : State} {a : Action}

/-- The tickets of the tasks that have been taken, and of those in the queue. -/
def State.line (s : State) : List ℕ := s.attempts ++ s.purgeQueue.map Task.ticket

/-! ## Lists whose first occurrences are in order -/

/-- The first occurrences are those of `0`, `1` and so on, in this order. -/
def Ordered (l : List ℕ) : Prop := ∀ i j, i < j → j ∈ l → l.idxOf i < l.idxOf j

theorem Ordered.mem {l : List ℕ} (h : Ordered l) {i j : ℕ} (hij : i < j) (hj : j ∈ l) : i ∈ l :=
  List.idxOf_lt_length_iff.1 ((h i j hij hj).trans (List.idxOf_lt_length_iff.2 hj))

theorem Ordered.again {l : List ℕ} (h : Ordered l) {n : ℕ} (hn : n ∈ l) : Ordered (l ++ [n]) := by
  intro i j hij hj
  have hj' : j ∈ l := by
    rcases List.mem_append.1 hj with hj | hj
    · exact hj
    · rwa [List.mem_singleton.1 hj]
  rw [List.idxOf_append_of_mem (h.mem hij hj'), List.idxOf_append_of_mem hj']
  exact h i j hij hj'

/-- The least number that is not there may come next. -/
theorem Ordered.next {l : List ℕ} (h : Ordered l) {n : ℕ} (hl : ∀ i, i ∈ l ↔ i < n) :
    Ordered (l ++ [n]) := by
  intro i j hij hj
  rcases List.mem_append.1 hj with hj | hj
  · rw [List.idxOf_append_of_mem (h.mem hij hj), List.idxOf_append_of_mem hj]
    exact h i j hij hj
  · obtain rfl := List.mem_singleton.1 hj
    have hi : i ∈ l := (hl i).2 hij
    have hj' : j ∉ l := fun hj' => lt_irrefl j ((hl j).1 hj')
    rw [List.idxOf_append_of_mem hi, List.idxOf_append_of_notMem hj']
    exact (List.idxOf_lt_length_iff.2 hi).trans_le (Nat.le_add_right _ _)

theorem Ordered.left {l m : List ℕ} (h : Ordered (l ++ m)) : Ordered l := by
  intro i j hij hj
  have hlt := h i j hij (List.mem_append_left m hj)
  rw [List.idxOf_append_of_mem hj] at hlt
  by_cases hi : i ∈ l
  · rwa [List.idxOf_append_of_mem hi] at hlt
  · rw [List.idxOf_append_of_notMem hi] at hlt
    have := List.idxOf_lt_length_iff.2 hj
    omega

/-! ## What a step adds -/

theorem Change.line (h : Change c s a s') : s.line <+: s'.line := by
  cases h with
  | accept path hroom =>
    refine ⟨[s.accepted.length], ?_⟩
    simp [State.line]
  | pop i p task rest h hp hstop hq =>
    refine ⟨[], ?_⟩
    simp [State.line, hq]
  | requeue i task h =>
    refine ⟨[task.ticket], ?_⟩
    simp [State.line, State.moved]
  | _ => exact List.prefix_refl _

structure InLine (s : State) : Prop where
  ordered : Ordered s.line
  tickets : ∀ n, n ∈ s.line ↔ n < s.accepted.length
  /-- What a worker has, it has taken. -/
  asked : ∀ t ∈ s.inFlight, t.ticket ∈ s.attempts

theorem construct_inLine (c : Config) : InLine (construct c) where
  ordered i j _ hj := by simp [construct, State.line] at hj
  tickets n := by simp [construct, State.line]
  asked t ht := by
    have : held Phase.task (List.replicate c.threadMax.toNat .ready) = [] := held_replicate rfl
    simp [State.inFlight, construct, this] at ht

namespace InLine

theorem keep (h : InLine s) (hline : s'.line = s.line) (hacc : s'.accepted = s.accepted)
    (hasked : ∀ t ∈ s'.inFlight, t.ticket ∈ s'.attempts) : InLine s' where
  ordered := by rw [hline]; exact h.ordered
  tickets n := by rw [hline, hacc]; exact h.tickets n
  asked := hasked

theorem next (h : InLine s) (hline : s'.line = s.line ++ [s.accepted.length])
    (hacc : s'.accepted.length = s.accepted.length + 1)
    (hasked : ∀ t ∈ s'.inFlight, t.ticket ∈ s'.attempts) : InLine s' where
  ordered := by rw [hline]; exact h.ordered.next h.tickets
  tickets n := by
    rw [hline, hacc, List.mem_append, h.tickets, List.mem_singleton]
    omega
  asked := hasked

theorem again (h : InLine s) {n : ℕ} (hn : n ∈ s.line) (hline : s'.line = s.line ++ [n])
    (hacc : s'.accepted = s.accepted) (hasked : ∀ t ∈ s'.inFlight, t.ticket ∈ s'.attempts) :
    InLine s' where
  ordered := by rw [hline]; exact h.ordered.again hn
  tickets k := by
    rw [hline, hacc, List.mem_append, List.mem_singleton, ← h.tickets]
    exact or_iff_left_of_imp fun hk => hk ▸ hn
  asked := hasked

theorem moved (h : InLine s) {i : ℕ} {p q : Phase} (hi : s.workers[i]? = some p)
    (hpq : ∀ t, q.task = some t → p.task = some t) :
    ∀ t ∈ (s.moved i q).inFlight, t.ticket ∈ s.attempts := by
  intro t ht
  obtain ⟨w, hw, hwt⟩ := List.mem_filterMap.1 ht
  rcases List.mem_or_eq_of_mem_set hw with hw | rfl
  · exact h.asked t (List.mem_filterMap.2 ⟨w, hw, hwt⟩)
  · exact h.asked t (List.mem_filterMap.2 ⟨p, List.mem_of_getElem? hi, hpq t hwt⟩)

theorem change (h : InLine s) (hc : Change c s a s') : InLine s' := by
  cases hc with
  | none | signal | stopReturn => exact h.keep rfl rfl h.asked
  | accept path hroom => exact h.next (by simp [State.line]) (by simp) h.asked
  | wait i p hi hp => exact h.keep rfl rfl (h.moved hi (by simp [Phase.task]))
  | quit i p hi hp => exact h.keep rfl rfl (h.moved hi (by simp [Phase.task]))
  | pop i p task rest hi hp hstop hq =>
    refine h.keep (by simp [State.line, hq]) rfl fun t ht => ?_
    obtain ⟨w, hw, hwt⟩ := List.mem_filterMap.1 ht
    rcases List.mem_or_eq_of_mem_set hw with hw | rfl
    · exact List.mem_append_left _ (h.asked t (List.mem_filterMap.2 ⟨w, hw, hwt⟩))
    · obtain rfl : task.tried = t := by simpa [Phase.task] using hwt
      exact List.mem_append_right _ List.mem_cons_self
  | fail i httpCode buffer task hi => exact h.keep rfl rfl (h.moved hi (by simp [Phase.task]))
  | purge i buffer task hi => exact h.keep rfl rfl (h.moved hi (by simp [Phase.task]))
  | requeue i task hi =>
    have hasked := h.asked task (List.mem_filterMap.2 ⟨_, List.mem_of_getElem? hi, rfl⟩)
    exact h.again (List.mem_append_left _ hasked) (by simp [State.line, State.moved]) rfl
      (h.moved hi (by simp [Phase.task]))
  | report i task hi => exact h.keep rfl rfl (h.moved hi (by simp [Phase.task]))

end InLine

theorem run_line (c : Config) (s : State) (as : List Action) :
    s.line <+: (run (step c) s as).2.line :=
  run_invariant (I := fun t => s.line <+: t.line)
    (fun t a h _ => List.IsPrefix.trans h (step_change c t a).line) s as (List.prefix_refl _)
    (RunOk.top s as)

/-- Whatever the workers do and in whatever order: a path is taken from the queue for the first time
before any path accepted after it, and what stands in the queue is taken in the order it stands
there, the one with `j` before it once the next `j` have been, where there are fewer than
`queue_max` of these. -/
theorem requests_in_order (c : Config) (as : List Action) :
    let s := (run (step c) (construct c) as).2
    (∀ i j, i < j → j ∈ s.attempts → s.attempts.idxOf i < s.attempts.idxOf j)
      ∧ ∀ (j : ℕ) (task : Task), s.purgeQueue[j]? = some task →
        j < c.queueMax ∧ ∀ more,
          s.attempts.length + j < (run (step c) s more).2.attempts.length →
            (run (step c) s more).2.attempts[s.attempts.length + j]? = some task.ticket := by
  intro s
  have hline : InLine s :=
    run_invariant (fun t a h _ => h.change (step_change c t a)) _ as (construct_inLine c)
      (RunOk.top _ as)
  refine ⟨hline.ordered.left, fun j task hj => ⟨?_, fun more hlen => ?_⟩⟩
  · exact (List.getElem?_eq_some_iff.1 hj).1.trans_le (run_ledger c as).room
  · obtain ⟨rest, hrest⟩ := run_line c s more
    have hat : (run (step c) s more).2.line[s.attempts.length + j]? = some task.ticket := by
      have hin : s.line[s.attempts.length + j]? = some task.ticket := by
        rw [State.line, List.getElem?_append_right (Nat.le_add_right _ _), Nat.add_sub_cancel_left,
          List.getElem?_map, hj]
        rfl
      rw [← hrest, List.getElem?_append_left (List.getElem?_eq_some_iff.1 hin).1, hin]
    rwa [State.line, List.getElem?_append_left hlen] at hat

end Purger

end XCache
