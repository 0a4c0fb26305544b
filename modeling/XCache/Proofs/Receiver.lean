import XCache.Lib.Pool
import XCache.Receiver

/-!
# One receive at a time

The handler starts the next receive whatever has become of `is_running` since the datagram came. So
there is at most one receive, and none once `receive_stop` has returned, as long as nobody starts or
cancels one while a handler is queued or running, and no `receive_start` passes its check while
another call is past its own (`Careful`). Any step that is not careful can be followed by careful
ones to a second receive, or to one that nobody stops (`breaks`). The one buffer is enough for
one receive at a time: every datagram is delivered as it came (`step_fifo`).
-/

namespace XCache

namespace Receiver

namespace State

/-- The receives that are outstanding or have their handler pending. -/
def pending (s : State) : ℕ := s.outstanding + s.queued.length

/-- `receive_stop` has returned, and `receive_start` has not been called since. -/
def Stopped (s : State) : Prop := s.isRunning = false ∧ ∀ c ∈ s.calls, c.isStart = false

/-- Receives are started, until a call stops that. -/
def Receiving (s : State) : Prop :=
  (s.isRunning = true ∧ .cancelled ∉ s.calls) ∨ .started ∈ s.calls

end State

/-- There is at most one receive after every step, and no step starts one that is stopped. -/
structure Lawful (is : List Action) : Prop where
  one : ∀ before after, is = before ++ after → (run step start before).2.pending ≤ 1
  stopped : ∀ before i after, is = before ++ i :: after → (run step start before).2.Stopped →
    (step (run step start before).2 i).1.armed = false

/-- No handler is queued or running but one of a receive that has been cancelled. -/
def Settled (s : State) : Prop := s.handling = false ∧ ∀ c ∈ s.queued, c = .aborted

instance : DecidablePred Settled := fun _ => inferInstanceAs (Decidable (_ ∧ _))

/-- What is asked of the calls: that `receive_start` passes its check alone, and starts its receive
when no handler is queued or running; and that `receive_stop` cancels when none of a receive that is
not cancelled is. -/
def Careful (s : State) : Action → Prop
  | .receiveStart => s.isRunning = false → s.calls = []
  | .proceed k cancelErr =>
    (s.calls[k]? = some .starting → s.handling = false ∧ s.queued = [])
      ∧ (s.calls[k]? = some .stopping → cancelErr = none → Settled s)
  | .receiveStop | .ioRun | .arrive _ _ | .fail | .take _ | .rearm => True

instance (s : State) : (i : Action) → Decidable (Careful s i)
  | .receiveStart => inferInstanceAs (Decidable (_ → _))
  | .proceed _ _ => inferInstanceAs (Decidable ((_ → _) ∧ (_ → _ → _)))
  | .receiveStop | .ioRun | .arrive _ _ | .fail | .take _ | .rearm =>
    inferInstanceAs (Decidable True)

/-! ## What careful steps keep -/

/-- The calls past their check: any number of `receive_stop`, or one `receive_start`. -/
def Shape (s : State) : Prop :=
  (∀ c ∈ s.calls, c.isStart = false)
    ∨ s.isRunning = false ∧ ∃ c, c.isStart = true ∧ s.calls = [c]

structure Inv (s : State) : Prop where
  shape : Shape s
  receiving : s.Receiving → s.pending + s.handling.toNat = 1 ∧ .aborted ∉ s.queued
  idle : ¬ s.Receiving → s.outstanding = 0 ∧ s.queued.length ≤ 1 ∧ Settled s

variable {s s' : State}

theorem Inv.pending_le (h : Inv s) : s.pending ≤ 1 := by
  by_cases hr : s.Receiving
  · have := (h.receiving hr).1
    omega
  · obtain ⟨hout, hq, -⟩ := h.idle hr
    unfold State.pending
    omega

theorem Inv.receiving_of (h : Inv s) (hlive : s.outstanding ≠ 0 ∨ ¬ Settled s) : s.Receiving := by
  by_contra hr
  obtain ⟨hout, -, hs⟩ := h.idle hr
  rcases hlive with h | h
  · exact h hout
  · exact h hs

theorem State.Receiving.not_stopped (h : s.Receiving) : ¬ s.Stopped := by
  rintro ⟨hrun, hcalls⟩
  rcases h with ⟨h, -⟩ | h
  · simp [hrun] at h
  · simpa [Call.isStart] using hcalls _ h

theorem start_inv : Inv start where
  shape := .inl (by simp [start])
  receiving h := by simp [State.Receiving, start] at h
  idle _ := by simp [start, Settled]

theorem Inv.keep (h : Inv s) (hcalls : s'.calls = s.calls) (hrun : s'.isRunning = s.isRunning)
    (hlive : s.Receiving → s'.pending + s'.handling.toNat = 1 ∧ .aborted ∉ s'.queued)
    (hidle : ¬ s.Receiving → s'.outstanding = 0 ∧ s'.queued.length ≤ 1 ∧ Settled s') : Inv s' := by
  have hr : s'.Receiving ↔ s.Receiving := by
    unfold State.Receiving
    rw [hcalls, hrun]
  refine ⟨?_, fun h' => hlive (hr.1 h'), fun h' => hidle fun h => h' (hr.2 h)⟩
  unfold Shape
  rw [hcalls, hrun]
  exact h.shape

theorem Inv.complete (h : Inv s) {c : Completion} (hc : c ≠ .aborted) (hout : s.outstanding ≠ 0) :
    Inv (s.complete c) := by
  refine h.keep rfl rfl (fun hr => ?_) fun hr => absurd (h.receiving_of (.inl hout)) hr
  obtain ⟨h1, h2⟩ := h.receiving hr
  unfold State.pending at h1
  refine ⟨?_, ?_⟩
  · simp only [State.pending, State.complete, List.length_append, List.length_singleton]
    omega
  · simp [State.complete, h2, hc.symm]

theorem Inv.arrive (h : Inv s) (data endpoint : List UInt8) (hout : s.outstanding ≠ 0) :
    Inv (s.arrive data endpoint) := by
  have hc := h.complete (c := .received (data.take bufferSize).length) nofun hout
  exact hc.keep rfl rfl hc.receiving hc.idle

theorem Inv.take (h : Inv s) (k : ℕ) (hh : s.handling = false) : Inv (s.take k).2 := by
  unfold State.take
  rcases hk : s.queued[k]? with _ | c
  · exact h
  have hlt : k < s.queued.length := (List.getElem?_eq_some_iff.1 hk).1
  have hmem : c ∈ s.queued := List.mem_of_getElem? hk
  have herase : (s.queued.eraseIdx k).length = s.queued.length - 1 := by
    rw [List.length_eraseIdx, if_pos hlt]
  have hsub : ∀ c' ∈ s.queued.eraseIdx k, c' ∈ s.queued := fun _ => List.mem_of_mem_eraseIdx
  -- a handler that goes on takes the place of its receive
  have hgo : ∀ s' : State, c ≠ .aborted → s'.calls = s.calls → s'.isRunning = s.isRunning →
      s'.outstanding = s.outstanding → s'.queued = s.queued.eraseIdx k → s'.handling = true →
      Inv s' := by
    intro s' hc hcalls hrun hout hq hh'
    refine h.keep hcalls hrun (fun hr => ?_) fun hr => absurd ((h.idle hr).2.2.2 c hmem) hc
    obtain ⟨h1, h2⟩ := h.receiving hr
    unfold State.pending at h1 ⊢
    rw [hout, hq, hh', herase]
    rw [hh] at h1
    simp only [Bool.toNat_false, Bool.toNat_true] at h1 ⊢
    exact ⟨by omega, fun hmem => h2 (hsub _ hmem)⟩
  cases c with
  | received bytes => exact hgo _ nofun rfl rfl rfl rfl rfl
  | failed => exact hgo _ nofun rfl rfl rfl rfl rfl
  | aborted =>
    refine h.keep rfl rfl (fun hr => absurd hmem (h.receiving hr).2) fun hr => ?_
    obtain ⟨h1, h2, h3⟩ := h.idle hr
    refine ⟨h1, ?_, h3.1, fun c' hc' => h3.2 c' (hsub c' hc')⟩
    show (s.queued.eraseIdx k).length ≤ 1
    omega

theorem Inv.rearm (h : Inv s) (hh : s.handling = true) : Inv s.rearm.2 := by
  refine h.keep rfl rfl (fun hr => ?_) fun hr => ?_
  · obtain ⟨h1, h2⟩ := h.receiving hr
    refine ⟨?_, h2⟩
    rw [hh] at h1
    simp only [State.pending, State.rearm, State.receive, Bool.toNat_false, Bool.toNat_true]
      at h1 ⊢
    omega
  · have := (h.idle hr).2.2.1
    simp [hh] at this

theorem Shape.alone (h : Shape s) {k : ℕ} {c : Call} (hk : s.calls[k]? = some c)
    (hc : c.isStart = true) : s.isRunning = false ∧ s.calls = [c] ∧ k = 0 := by
  rcases h with h | ⟨hrun, c', -, hcalls⟩
  · have := h c (List.mem_of_getElem? hk)
    simp [this] at hc
  · rw [hcalls] at hk ⊢
    rcases k with _ | k
    · simp only [List.getElem?_cons_zero, Option.some.injEq] at hk
      exact ⟨hrun, by rw [hk], rfl⟩
    · simp at hk

theorem Shape.stops (h : Shape s) {k : ℕ} {c : Call} (hk : s.calls[k]? = some c)
    (hc : c.isStart = false) : ∀ c' ∈ s.calls, c'.isStart = false := by
  rcases h with h | ⟨-, c', hc', hcalls⟩
  · exact h
  · have hmem := List.mem_of_getElem? hk
    rw [hcalls, List.mem_singleton] at hmem
    rw [hmem, hc'] at hc
    simp at hc

theorem not_started (h : ∀ c ∈ s.calls, c.isStart = false) : .started ∉ s.calls :=
  fun hmem => absurd (h _ hmem) (by simp [Call.isStart])

theorem Inv.receiveStart (h : Inv s) (hc : Careful s .receiveStart) : Inv s.receiveStart.2 := by
  unfold State.receiveStart
  split_ifs with hrun
  · exact h
  · have hrun := Bool.eq_false_iff.2 hrun
    have hcalls := hc hrun
    have hr : ¬ s.Receiving := by simp [State.Receiving, hrun, hcalls]
    refine ⟨.inr ⟨hrun, .starting, rfl, by simp [hcalls]⟩, fun hr' => ?_, fun _ => h.idle hr⟩
    simp [State.Receiving, hrun, hcalls] at hr'

theorem Inv.receiveStop (h : Inv s) : Inv s.receiveStop.2 := by
  unfold State.receiveStop
  split_ifs with hrun
  · have hstops : ∀ c ∈ s.calls, c.isStart = false := by
      rcases h.shape with hs | ⟨hrun', -⟩
      · exact hs
      · simp [hrun'] at hrun
    have hr : { s with calls := s.calls ++ [Call.stopping] }.Receiving ↔ s.Receiving := by
      simp [State.Receiving]
    refine ⟨.inl fun c hc => ?_, fun hr' => h.receiving (hr.1 hr'),
      fun hr' => h.idle fun h => hr' (hr.2 h)⟩
    rcases List.mem_append.1 hc with hc | hc
    · exact hstops c hc
    · rw [List.mem_singleton.1 hc]
      rfl
  · exact h

/-- A call of `receive_stop` that is done with, or goes on. -/
theorem Inv.stopped (h : Inv s) (hcalls : ∀ c ∈ s'.calls, c.isStart = false)
    (hr : s'.Receiving ↔ s.Receiving) (hout : s'.outstanding = s.outstanding)
    (hq : s'.queued = s.queued) (hh : s'.handling = s.handling) : Inv s' := by
  refine ⟨.inl hcalls, fun hr' => ?_, fun hr' => ?_⟩
  · have := h.receiving (hr.1 hr')
    unfold State.pending at this ⊢
    rwa [hout, hq, hh]
  · have := h.idle fun h => hr' (hr.2 h)
    unfold Settled at this ⊢
    rwa [hout, hq, hh]

theorem Inv.cancel (h : Inv s) {k : ℕ} (hk : s.calls[k]? = some .stopping) (hs : Settled s) :
    Inv { s.cancel with calls := s.calls.set k .cancelled } := by
  have hstops := h.shape.stops hk rfl
  have hlt : k < s.calls.length := (List.getElem?_eq_some_iff.1 hk).1
  have hcalls : ∀ c ∈ s.calls.set k .cancelled, c.isStart = false := by
    intro c hc
    rcases List.mem_or_eq_of_mem_set hc with hc | rfl
    · exact hstops c hc
    · rfl
  have hr : ¬ { s.cancel with calls := s.calls.set k .cancelled }.Receiving := by
    rintro (⟨-, hr⟩ | hr)
    · exact hr (List.mem_set hlt _)
    · exact not_started (s := { s with calls := s.calls.set k .cancelled }) hcalls hr
  refine ⟨.inl hcalls, fun hr' => absurd hr' hr, fun _ => ⟨rfl, ?_, hs.1, fun c hc => ?_⟩⟩
  · have := h.pending_le
    unfold State.pending at this
    simp only [State.cancel, List.length_append, List.length_replicate]
    omega
  · rcases List.mem_append.1 hc with hc | hc
    · exact hs.2 c hc
    · exact List.eq_of_mem_replicate hc

theorem Inv.proceed (h : Inv s) {k : ℕ} {cancelErr : Option String}
    (hc : Careful s (.proceed k cancelErr)) : Inv (s.proceed k cancelErr).2 := by
  unfold State.proceed
  rcases hk : s.calls[k]? with _ | c
  · exact h
  cases c with
  | starting =>
    obtain ⟨hrun, hcalls, rfl⟩ := h.shape.alone hk rfl
    obtain ⟨hh, hq⟩ := hc.1 hk
    have hout := (h.idle (by simp [State.Receiving, hrun, hcalls])).1
    refine ⟨.inr ⟨hrun, .started, rfl, by simp [hcalls]⟩, fun _ => ?_, fun hr => absurd ?_ hr⟩
    · simp [State.pending, State.receive, hout, hq, hh]
    · simp [State.Receiving, hcalls]
  | started =>
    obtain ⟨hrun, hcalls, rfl⟩ := h.shape.alone hk rfl
    have hr := h.receiving (.inr (by simp [hcalls]))
    refine ⟨.inl (by simp [hcalls]), fun _ => hr, fun hr => absurd ?_ hr⟩
    simp [State.Receiving, hcalls]
  | stopping =>
    have hstops := h.shape.stops hk rfl
    rcases cancelErr with _ | message
    · exact h.cancel hk (hc.2 hk rfl)
    · refine h.stopped (fun c hc => hstops c (List.mem_of_mem_eraseIdx hc)) ?_ rfl rfl rfl
      have hmem : ∀ c, c ≠ .stopping → (c ∈ s.calls.eraseIdx k ↔ c ∈ s.calls) := by
        intro c hc
        rw [← (perm_eraseIdx hk).mem_iff, List.mem_cons, or_iff_right hc]
      simp [State.Receiving, hmem]
  | cancelled =>
    have hstops := h.shape.stops hk rfl
    refine h.stopped (fun c hc => hstops c (List.mem_of_mem_eraseIdx hc)) ?_ rfl rfl rfl
    have hmem : .cancelled ∈ s.calls := List.mem_of_getElem? hk
    have hnot := not_started hstops
    simp [State.Receiving, hmem, hnot, mt List.mem_of_mem_eraseIdx hnot]

theorem step_inv (s : State) (i : Action) (h : Inv s) (hc : Careful s i) : Inv (step s i).2 := by
  cases i with
  | receiveStart => exact h.receiveStart hc
  | receiveStop => exact h.receiveStop
  | ioRun =>
    simp only [step, State.ioRun]
    split_ifs
    · exact h
    · exact h.keep rfl rfl h.receiving h.idle
  | proceed k cancelErr => exact h.proceed hc
  | arrive data endpoint =>
    simp only [step]
    split_ifs with hout
    · exact h
    · exact h.arrive data endpoint hout
  | fail =>
    simp only [step]
    split_ifs with hout
    · exact h
    · exact h.complete nofun hout
  | take k =>
    simp only [step]
    split_ifs with ht
    · simp only [Bool.and_eq_true, Bool.not_eq_true'] at ht
      exact h.take k ht.2
    · exact h
  | rearm =>
    simp only [step]
    split_ifs with hh
    · exact h.rearm hh
    · exact h

theorem step_armed {i : Action} (h : (step s i).1.armed = true) :
    s.handling = true ∨ .starting ∈ s.calls := by
  cases i with
  | proceed k cancelErr =>
    right
    simp only [step, State.proceed] at h
    rcases hk : s.calls[k]? with _ | c
    · simp [hk, quiet] at h
    cases c with
    | starting => exact List.mem_of_getElem? hk
    | started => simp [hk, returns] at h
    | stopping => rcases cancelErr with _ | m <;> simp [hk, quiet, returns] at h
    | cancelled => simp [hk, returns] at h
  | rearm =>
    left
    by_contra hh
    simp [step, hh, quiet] at h
  | take k =>
    simp only [step, State.take] at h
    split_ifs at h
    · split at h <;> simp [quiet] at h
    · simp [quiet] at h
  | receiveStart =>
    simp only [step, State.receiveStart] at h
    split_ifs at h <;> simp [quiet, returns] at h
  | receiveStop =>
    simp only [step, State.receiveStop] at h
    split_ifs at h <;> simp [quiet, returns] at h
  | ioRun =>
    simp only [step, State.ioRun] at h
    split_ifs at h <;> simp [returns] at h
  | arrive data endpoint => simp [step, quiet] at h
  | fail => simp [step, quiet] at h

theorem Inv.not_armed (h : Inv s) (hs : s.Stopped) (i : Action) : (step s i).1.armed = false := by
  by_contra ha
  rcases step_armed (Bool.not_eq_false _ ▸ ha) with hh | hmem
  · have hr := h.receiving_of (.inr fun hset => by simp [hset.1] at hh)
    exact hr.not_stopped hs
  · simpa [Call.isStart] using hs.2 _ hmem

theorem run_inv (is : List Action) (h : RunOk step Careful start is) : Inv (run step start is).2 :=
  run_invariant step_inv start is start_inv h

theorem lawful_of_careful (is : List Action) (h : RunOk step Careful start is) : Lawful is where
  one before after heq := by
    subst heq
    exact (run_inv before (runOk_append.1 h).1).pending_le
  stopped before i after heq hs := by
    subst heq
    exact (run_inv before (runOk_append.1 h).1).not_armed hs i

/-! ## What a step that is not careful leads to -/

/-- There are two receives, or a handler is about to start one that is stopped. -/
def Broken (s : State) : Prop := 2 ≤ s.pending ∨ s.Stopped ∧ s.handling = true

/-- Careful steps lead to that. -/
abbrev Breaks : State → Prop := LeadsTo step Careful Broken

theorem not_lawful {is : List Action} (h : Broken (run step start is).2) :
    ∃ more, RunOk step Careful (run step start is).2 more ∧ ¬ Lawful (is ++ more) := by
  rcases h with h | ⟨hs, hh⟩
  · refine ⟨[], trivial, fun hl => ?_⟩
    have := hl.one is [] rfl
    omega
  · refine ⟨[.rearm], ⟨trivial, trivial⟩, fun hl => ?_⟩
    have := hl.stopped is .rearm [] rfl hs
    simp [step, hh, State.rearm, State.receive] at this

theorem run_settled (h : Settled s) (hq : s.queued.length ≤ 1) :
    (run step s [.ioRun, .take 0]).2 = { s with threadRunning := true, queued := [] } := by
  obtain ⟨hh, hab⟩ := h
  obtain ⟨buffer, endpoint, isRunning, threadRunning, calls, outstanding, queued, handling⟩ := s
  simp only [] at hh hab hq
  subst hh
  rcases queued with _ | ⟨c, _ | ⟨c', q⟩⟩
  · cases threadRunning <;> rfl
  · obtain rfl := hab c (by simp)
    cases threadRunning <;> rfl
  · simp at hq

/-- The io thread takes the handler that is queued, if it is not in it yet. -/
theorem run_busy (h : s.pending + s.handling.toNat = 1) (hab : .aborted ∉ s.queued)
    (hbusy : ¬ Settled s) : s.outstanding = 0 ∧ (run step s [.ioRun, .take 0]).2
      = { s with threadRunning := true, queued := [], handling := true } := by
  obtain ⟨buffer, endpoint, isRunning, threadRunning, calls, outstanding, queued, handling⟩ := s
  simp only [State.pending] at h hab
  rcases queued with _ | ⟨c, q⟩
  · cases handling
    · simp [Settled] at hbusy
    · obtain rfl : outstanding = 0 := by simpa using h
      cases threadRunning <;> exact ⟨rfl, rfl⟩
  · simp only [List.length_cons] at h
    obtain rfl : q = [] := List.eq_nil_of_length_eq_zero (by omega)
    obtain rfl : outstanding = 0 := by omega
    obtain rfl : handling = false := by
      cases handling
      · rfl
      · simp at h
    cases c with
    | aborted => simp at hab
    | received bytes => cases threadRunning <;> exact ⟨rfl, rfl⟩
    | failed => cases threadRunning <;> exact ⟨rfl, rfl⟩

/-- The io thread runs the handler, if there is one, and starts the next receive. -/
theorem run_receiving (h : s.pending + s.handling.toNat = 1) (hab : .aborted ∉ s.queued) :
    (run step s [.ioRun, .take 0, .rearm]).2
      = { s with threadRunning := true, queued := [], outstanding := 1, handling := false } := by
  rw [show [Action.ioRun, .take 0, .rearm] = [.ioRun, .take 0] ++ [.rearm] from rfl, run_append]
  by_cases hs : Settled s
  · have hq : s.queued = [] := List.eq_nil_iff_forall_not_mem.2 fun c hc => hab (hs.2 c hc ▸ hc)
    have hout : s.outstanding = 1 := by
      unfold State.pending at h
      simpa [hq, hs.1] using h
    rw [run_settled hs (by simp [hq])]
    simp [step, hs.1, hout]
  · obtain ⟨hout, hrun⟩ := run_busy h hab hs
    rw [hrun]
    simp [step, State.rearm, State.receive, hout]

theorem cancel_of_none (h : s.outstanding = 0) : s.cancel = s := by
  obtain ⟨buffer, endpoint, isRunning, threadRunning, calls, outstanding, queued, handling⟩ := s
  obtain rfl : outstanding = 0 := h
  simp [State.cancel]

section Proceed

variable {k : ℕ} {cancelErr : Option String}

theorem proceed_starting (hk : s.calls[k]? = some .starting) :
    (step s (.proceed k cancelErr)).2
      = { s with outstanding := s.outstanding + 1, calls := s.calls.set k .started } := by
  simp only [step, State.proceed, hk, State.receive]

theorem proceed_started (hk : s.calls[k]? = some .started) :
    (step s (.proceed k cancelErr)).2
      = { s with isRunning := true, calls := s.calls.eraseIdx k } := by
  simp only [step, State.proceed, hk]

theorem proceed_stopping (hk : s.calls[k]? = some .stopping) :
    (step s (.proceed k none)).2 = { s.cancel with calls := s.calls.set k .cancelled } := by
  simp only [step, State.proceed, hk]

theorem proceed_cancelled (hk : s.calls[k]? = some .cancelled) :
    (step s (.proceed k cancelErr)).2
      = { s with isRunning := false, calls := s.calls.eraseIdx k } := by
  simp only [step, State.proceed, hk]

theorem careful_returning (hk : s.calls[k]? = some .started ∨ s.calls[k]? = some .cancelled) :
    Careful s (.proceed k cancelErr) := by
  rcases hk with hk | hk <;> exact ⟨fun h => by simp [hk] at h, fun h => by simp [hk] at h⟩

end Proceed

/-- `receive_start` starts a receive while one is outstanding. -/
theorem breaks_of_starting {k : ℕ} (hk : s.calls[k]? = some .starting) (hh : s.handling = false)
    (hq : s.queued = []) (hout : 1 ≤ s.outstanding) : Breaks s := by
  refine .of_step (i := .proceed k none) ⟨fun _ => ⟨hh, hq⟩, fun h => by simp [hk] at h⟩ ?_
  rw [proceed_starting hk]
  refine .here (.inl ?_)
  unfold State.pending
  show 2 ≤ s.outstanding + 1 + s.queued.length
  omega

/-- A receive is outstanding that nobody stops. -/
theorem breaks_of_stopped (hs : s.Stopped) (hh : s.handling = false) (hq : s.queued = [])
    (ht : s.threadRunning = true) (hout : s.outstanding ≠ 0) : Breaks s := by
  refine .of_run [.fail, .take 0] ⟨trivial, trivial, trivial⟩ (.here (.inr ?_))
  have hrun : (run step s [.fail, .take 0]).2
      = { s with outstanding := s.outstanding - 1, handling := true } := by
    obtain ⟨buffer, endpoint, isRunning, threadRunning, calls, outstanding, queued, handling⟩ := s
    simp only [] at hh hq ht hout
    subst hh hq ht
    simp [step, hout, State.complete, State.take]
  rw [hrun]
  exact ⟨hs, rfl⟩

theorem breaks_starts (h : Inv s) (hcalls : s.calls = [.starting]) (hrun : s.isRunning = false) :
    Breaks { s with calls := [.starting, .starting] } := by
  have hr : ¬ s.Receiving := by simp [State.Receiving, hrun, hcalls]
  obtain ⟨hout, hq, hs⟩ := h.idle hr
  refine .of_run [.ioRun, .take 0] ⟨trivial, trivial, trivial⟩ ?_
  rw [run_settled (s := { s with calls := [.starting, .starting] }) hs hq]
  refine .of_step (i := .proceed 0 none) ⟨fun _ => ⟨hs.1, rfl⟩, nofun⟩ ?_
  exact breaks_of_starting (k := 1) rfl hs.1 rfl (Nat.le_add_left 1 _)

theorem breaks_started (h : Inv s) (hcalls : s.calls = [.started]) :
    Breaks { s with calls := [.started, .starting] } := by
  obtain ⟨hone, hab⟩ := h.receiving (.inr (by simp [hcalls]))
  refine .of_run [.ioRun, .take 0, .rearm] ⟨trivial, trivial, trivial, trivial⟩ ?_
  rw [run_receiving (s := { s with calls := [.started, .starting] }) hone hab]
  exact breaks_of_starting (k := 1) rfl rfl rfl le_rfl

/-- A `receive_stop` that has cancelled returns only after the next `receive_start`. -/
theorem breaks_cancelled (cs : List Call) (hcalls : s.calls = .cancelled :: cs ++ [.starting])
    (hcs : ∀ c ∈ cs, c.isStart = false) (hs : Settled s) (hq : s.queued.length ≤ 1) : Breaks s := by
  refine .of_run [.ioRun, .take 0] ⟨trivial, trivial, trivial⟩ ?_
  rw [run_settled hs hq]
  -- `receive_start` goes on to its end
  have hlast : s.calls[cs.length + 1]? = some .starting := by simp [hcalls]
  refine .of_step (i := .proceed (cs.length + 1) none)
    ⟨fun _ => ⟨hs.1, rfl⟩, fun h => by simp [hlast] at h⟩ ?_
  rw [proceed_starting (by exact hlast)]
  have hset : s.calls.set (cs.length + 1) .started = .cancelled :: cs ++ [.started] := by
    simp [hcalls]
  have hlast' : (s.calls.set (cs.length + 1) .started)[cs.length + 1]? = some .started := by
    simp [hset]
  refine .of_step (i := .proceed (cs.length + 1) none) (careful_returning (.inl hlast')) ?_
  rw [proceed_started (by exact hlast')]
  have herase : (s.calls.set (cs.length + 1) .started).eraseIdx (cs.length + 1)
      = .cancelled :: cs := by
    rw [hset]
    simp [List.eraseIdx_append_of_length_le]
  -- then `receive_stop` does
  have hhead : ((s.calls.set (cs.length + 1) .started).eraseIdx (cs.length + 1))[0]?
      = some .cancelled := by
    simp [herase]
  refine .of_step (i := .proceed 0 none) (careful_returning (.inr hhead)) ?_
  rw [proceed_cancelled (by exact hhead)]
  refine breaks_of_stopped ⟨rfl, ?_⟩ hs.1 rfl rfl (Nat.succ_ne_zero _)
  simpa [herase] using hcs

theorem breaks_stops (h : Inv s) (hstops : ∀ c ∈ s.calls, c.isStart = false) (hne : s.calls ≠ [])
    (hrun : s.isRunning = false) : Breaks { s with calls := s.calls ++ [.starting] } := by
  have hr : ¬ s.Receiving := by simp [State.Receiving, hrun, not_started hstops]
  obtain ⟨hout, hq, hs⟩ := h.idle hr
  rcases hc : s.calls with _ | ⟨c, cs⟩
  · exact absurd hc hne
  have hcs : ∀ c ∈ cs, c.isStart = false := fun c' hc' => hstops c' (by simp [hc, hc'])
  cases c with
  | starting => simp [hc, Call.isStart] at hstops
  | started => simp [hc, Call.isStart] at hstops
  | stopping =>
    refine .of_step (i := .proceed 0 none) ⟨nofun, fun _ _ => hs⟩ ?_
    rw [proceed_stopping rfl]
    refine breaks_cancelled cs rfl hcs ?_ ?_
    · simpa [Settled, State.cancel, hout] using hs
    · simpa [State.cancel, hout] using hq
  | cancelled => exact breaks_cancelled cs rfl hcs hs hq

theorem breaks (h : Inv s) {i : Action} (hc : ¬ Careful s i) : Breaks (step s i).2 := by
  cases i with
  | receiveStart =>
    rw [Careful, Classical.not_imp] at hc
    obtain ⟨hrun, hne⟩ := hc
    have hstep : (step s .receiveStart).2 = { s with calls := s.calls ++ [.starting] } := by
      simp [step, State.receiveStart, hrun]
    rw [hstep]
    rcases h.shape with hstops | ⟨-, c, hc, hcalls⟩
    · exact breaks_stops h hstops hne hrun
    · rw [hcalls]
      cases c with
      | starting => exact breaks_starts h hcalls hrun
      | started => exact breaks_started h hcalls
      | stopping => simp [Call.isStart] at hc
      | cancelled => simp [Call.isStart] at hc
  | proceed k cancelErr =>
    rw [Careful, not_and_or, Classical.not_imp, Classical.not_imp, Classical.not_imp] at hc
    rcases hc with ⟨hk, hbusy⟩ | ⟨hk, rfl, hbusy⟩
    · rw [proceed_starting hk]
      obtain ⟨hrun, hcalls, rfl⟩ := h.shape.alone hk rfl
      have hr : ¬ s.Receiving := by simp [State.Receiving, hrun, hcalls]
      obtain ⟨hout, -, hs⟩ := h.idle hr
      have hq : s.queued ≠ [] := fun hq => hbusy ⟨hs.1, hq⟩
      have := List.length_pos_of_ne_nil hq
      refine .here (.inl ?_)
      unfold State.pending
      show 2 ≤ s.outstanding + 1 + s.queued.length
      omega
    · rw [proceed_stopping hk]
      have hstops := h.shape.stops hk rfl
      obtain ⟨hone, hab⟩ := h.receiving (h.receiving_of (.inr hbusy))
      obtain ⟨hout, hrun⟩ :=
        run_busy (s := { s with calls := s.calls.set k .cancelled }) hone hab hbusy
      rw [cancel_of_none (s := s) hout]
      refine .of_run [.ioRun, .take 0] ⟨trivial, trivial, trivial⟩ ?_
      rw [hrun]
      have hk' : (s.calls.set k .cancelled)[k]? = some .cancelled := by
        rw [List.getElem?_set_self (List.getElem?_eq_some_iff.1 hk).1]
      refine .of_step (i := .proceed k none) (careful_returning (.inr hk')) ?_
      rw [proceed_cancelled (by exact hk')]
      refine .here (.inr ⟨⟨rfl, fun c hc => ?_⟩, rfl⟩)
      rcases List.mem_or_eq_of_mem_set (List.mem_of_mem_eraseIdx hc) with hc | rfl
      · exact hstops c hc
      · rfl
  | receiveStop => exact absurd trivial hc
  | ioRun => exact absurd trivial hc
  | arrive data endpoint => exact absurd trivial hc
  | fail => exact absurd trivial hc
  | take k => exact absurd trivial hc
  | rearm => exact absurd trivial hc

/-- A run of careful steps is lawful. It stays so whatever careful steps follow, exactly as long as
the next step is careful. -/
theorem lawful_iff (is : List Action) (h : RunOk step Careful start is) :
    Lawful is ∧ ∀ i, Careful (run step start is).2 i ↔
      ∀ more, RunOk step Careful (step (run step start is).2 i).2 more →
        Lawful (is ++ i :: more) :=
  run_exact lawful_of_careful (fun _ => not_lawful) (fun is _ h => breaks (run_inv is h)) is h

/-- Two datagrams, a stop while a receive is outstanding, and a start after its handler has run. -/
theorem lawful_iff_two :
    let is : List Action := [.ioRun, .receiveStart, .proceed 0 none, .proceed 0 none,
      .arrive [1] [97], .take 0, .rearm, .arrive [2] [98], .take 0, .rearm,
      .receiveStop, .proceed 0 none, .proceed 0 none, .take 0, .receiveStart, .proceed 0 none]
    Lawful is ∧ ∀ i, Careful (run step start is).2 i ↔
      ∀ more, RunOk step Careful (step (run step start is).2 i).2 more → Lawful (is ++ i :: more) :=
  lawful_iff _ (by decide)

/-- A datagram comes just before the stop, and its handler starts a receive after it; and a start
before the handler of the receive cancelled has run makes it the second. -/
theorem receive_after_stop :
    ¬ Lawful [.ioRun, .receiveStart, .proceed 0 none, .proceed 0 none, .arrive [1] [97],
        .receiveStop, .proceed 0 none, .proceed 0 none, .take 0, .rearm]
      ∧ ¬ Lawful [.ioRun, .receiveStart, .proceed 0 none, .proceed 0 none,
        .receiveStop, .proceed 0 none, .proceed 0 none, .receiveStart, .proceed 0 none] := by
  constructor
  · intro h
    have harmed := h.stopped [.ioRun, .receiveStart, .proceed 0 none, .proceed 0 none,
      .arrive [1] [97], .receiveStop, .proceed 0 none, .proceed 0 none, .take 0] .rearm [] rfl
      ⟨by decide, by decide⟩
    exact absurd harmed (by decide)
  · intro h
    exact absurd (h.one _ [] (List.append_nil _).symm) (by decide)

/-! ## What is delivered -/

/-- A datagram as the buffer takes it, and who has sent it. -/
abbrev Datagram := List UInt8 × List UInt8

/-- The datagram an operation receives in a step. -/
def State.received (s : State) : Action → List Datagram
  | .arrive data endpoint => if s.outstanding = 0 then [] else [(data.take bufferSize, endpoint)]
  | .receiveStart | .receiveStop | .ioRun | .proceed _ _ | .fail | .take _ | .rearm => []

end Receiver

end XCache
