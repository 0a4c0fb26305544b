import XCache.Proofs.LoggerThreads

/-!
# A thread that is alone

A thread that no other interrupts does what `Logger`'s model says of the whole call: `put_*`
(`put_alone`) and `submit` (`submit_alone`) leave the same logger behind.
-/

namespace XCache

namespace Logger.Threads

variable {s : State} {t c i : ℕ} {p q : Phase}

/-! ## One message -/

theorem step_advance (h : s.crashed = false) (t : ℕ) : (step s (.advance t)).2 = s.advance t := by
  show (if s.crashed then s else s.advance t) = _
  rw [if_neg (by simp [h])]

theorem step_crashed (h : s.crashed = true) (a : Action) : (step s a).2 = s := if_pos h

theorem run_crashed (h : s.crashed = true) : ∀ as : List Action, (run step s as).2 = s
  | [] => rfl
  | a :: as => by
    rw [run_cons, step_crashed h]
    exact run_crashed h as

/-- A message of `put` and of `submit`. -/
def putText (level : Level) (zone : ℤ) (msg : Text) : Call Unit := do
  let text ← withZone zone msg
  putImpl level text

/-- A thread that is about to hand a message over, and goes through both parts. -/
theorem putText_alone {level : Level} {zone : ℤ} {msg : Text} {o : Option ℕ} {p : Text → Phase}
    (hcrash : s.crashed = false)
    (hconsole : s.advance t = s.handConsole t o level zone msg p)
    (hfiles : ∀ hs text, (s.gave t o hs (p text)).advance t
      = (s.gave t o hs (p text)).handFiles t o level text q) :
    (∃ e, ∃ s' : State, (run step s [.advance t, .advance t]).2 = s' ∧ s'.crashed = true
        ∧ outcome (putText level zone msg) s.logger = (.error e, s'.logger))
      ∨ ∃ hs hs' text, (run step s [.advance t, .advance t]).2
          = (s.gave t o hs (p text)).gave t o hs' q
        ∧ outcome (putText level zone msg) s.logger = (.ok (), (s.logger.hand hs).hand hs') := by
  have hrun : (run step s [.advance t, .advance t]).2
      = (step (s.handConsole t o level zone msg p) (.advance t)).2 := by
    rw [← hconsole, ← step_advance hcrash]
    rfl
  rw [hrun, putText]
  obtain ⟨hzone, heq⟩ | ⟨e, hzone, heq⟩ := handConsole_cases s t o level zone msg p
  · rw [heq, outcome_bind_ok hzone, putImpl_parts, outcome_bind_ok (outcome_get _)]
    obtain ⟨hlog, heq⟩ | ⟨e, hlog, heq⟩ := hand_cases s t o (consoleSink s.logger level) level
      (zoneText zone ++ msg) (p (zoneText zone ++ msg))
    · rw [heq, outcome_bind_ok hlog, step_advance (by exact hcrash), hfiles]
      obtain ⟨hlog', heq'⟩ | ⟨e, hlog', heq'⟩ := hand_cases
        (s.gave t o (given (consoleSink s.logger level) level (zoneText zone ++ msg))
          (p (zoneText zone ++ msg))) t o (filesSink s.logger level) level (zoneText zone ++ msg) q
      · exact .inr ⟨_, _, _, heq', hlog'⟩
      · exact .inl ⟨e, _, heq', rfl, hlog'⟩
    · rw [heq, outcome_bind_error hlog]
      exact .inl ⟨e, s.crash, step_crashed rfl _, rfl, rfl⟩
  · rw [heq, outcome_bind_error hzone]
    exact .inl ⟨e, s.crash, step_crashed rfl _, rfl, rfl⟩

theorem getElem?_moved (ht : s.threads[t]? = some p) (q : Phase) :
    (s.threads.set t q)[t]? = some q :=
  List.getElem?_set_self (List.getElem?_eq_some_iff.1 ht).1

theorem updateMulti_congr {l : Logger.State} {multi : MultiLog} {f g : List Entry → List Entry}
    (hi : l.multis[i]? = some multi) (h : f multi.logs = g multi.logs) :
    l.updateMulti i f = l.updateMulti i g := by
  unfold Logger.State.updateMulti
  congr 1
  refine List.ext_getElem? fun j => ?_
  rw [List.getElem?_modify, List.getElem?_modify]
  by_cases hij : i = j
  · subst hij
    simp [hi, h]
  · simp [hij]

/-- A message of a batch, up to its `pop`. -/
theorem round_alone {zone : ℤ} {level : Level} {msg : Text} {logs : List Entry}
    (hcrash : s.crashed = false) (ht : s.threads[t]? = some (.looping c i))
    (hi : s.logger.multis[i]? = some ⟨zone, (msg, level) :: logs⟩) :
    (∃ e, ∃ s' : State, (run step s (List.replicate 3 (.advance t))).2 = s' ∧ s'.crashed = true
        ∧ outcome (putText level zone msg) s.logger = (.error e, s'.logger))
      ∨ ∃ s' : State, ∃ l : Logger.State, (run step s (List.replicate 3 (.advance t))).2 = s'
        ∧ s'.crashed = false ∧ s'.threads[t]? = some (.looping c i)
        ∧ outcome (putText level zone msg) s.logger = (.ok (), l)
        ∧ s'.logger = l.updateMulti i (fun _ => logs)
        ∧ s'.logger.multis[i]? = some ⟨zone, logs⟩ := by
  have hconsole : s.advance t = s.handConsole t (some c) level zone msg (.filing c i level) := by
    simp only [State.advance, ht, State.loop, hi]
  have hfiles : ∀ hs text, (s.gave t (some c) hs (.filing c i level text)).advance t
      = (s.gave t (some c) hs (.filing c i level text)).handFiles t (some c) level text
        (.popping c i) := by
    intro hs text
    have hat : (s.gave t (some c) hs (.filing c i level text)).threads[t]?
        = some (.filing c i level text) := getElem?_moved ht _
    simp only [State.advance, hat]
  have hsplit : (run step s (List.replicate 3 (.advance t))).2
      = (step (run step s [.advance t, .advance t]).2 (.advance t)).2 := rfl
  rw [hsplit]
  obtain ⟨e, s', hrun, hs', hout⟩ | ⟨hs, hs', text, hrun, hout⟩ :=
    putText_alone hcrash hconsole hfiles
  · exact .inl ⟨e, s', by rw [hrun, step_crashed hs'], hs', hout⟩
  · have hat : ((s.gave t (some c) hs (.filing c i level text)).gave t (some c) hs'
        (.popping c i)).threads[t]? = some (.popping c i) :=
      getElem?_moved (getElem?_moved ht _) _
    have hlogs : ((s.logger.hand hs).hand hs').updateMulti i List.tail
        = ((s.logger.hand hs).hand hs').updateMulti i fun _ => logs :=
      updateMulti_congr hi rfl
    rw [hrun, step_advance (by exact hcrash)]
    simp only [State.advance, hat]
    refine .inr ⟨_, _, rfl, hcrash, getElem?_moved hat _, hout, hlogs, ?_⟩
    show (((s.logger.hand hs).hand hs').updateMulti i List.tail).multis[i]? = _
    rw [hlogs, Logger.State.updateMulti, List.getElem?_modify_eq]
    show s.logger.multis[i]?.map _ = _
    rw [hi]
    rfl

/-! ## Calls -/

/-- A `submit` that has the lock does what it does without threads. -/
theorem loop_alone (t c i : ℕ) (zone : ℤ) : ∀ (logs : List Entry) {s : State},
    s.crashed = false → s.threads[t]? = some (.looping c i) →
    s.logger.multis[i]? = some ⟨zone, logs⟩ →
    (run step s (List.replicate (3 * logs.length) (.advance t))).2.logger
      = (outcome (submitLogs i zone logs) s.logger).2
  | [], s, _, _, _ => rfl
  | (msg, level) :: logs, s, hcrash, ht, hi => by
    have hlen : 3 * ((msg, level) :: logs).length = 3 + 3 * logs.length := by
      rw [List.length_cons]
      omega
    rw [hlen, ← List.replicate_append_replicate, run_append]
    have hsubmit : submitLogs i zone ((msg, level) :: logs) = (do
        putText level zone msg
        modify fun s => s.updateMulti i fun _ => logs
        submitLogs i zone logs) := by
      rw [submitLogs, putText, bind_assoc]
    rw [hsubmit]
    obtain ⟨e, s', hrun, hs', hout⟩ | ⟨s', l, hrun, hs', ht', hout, hlogger, hi'⟩ :=
      round_alone hcrash ht hi
    · rw [hrun, outcome_bind_error hout, run_crashed hs']
    · have ih := loop_alone t c i zone logs hs' ht' hi'
      rw [hrun, outcome_bind_ok hout, ih, outcome_bind_ok (outcome_modify _ l), hlogger]

/-- A thread that meets no other leaves the logger as `submit` without threads does. -/
theorem submit_alone {zone : ℤ} {logs : List Entry} (hcrash : s.crashed = false)
    (hfree : s.Free t i) (hw : s.writer = none) (hr : s.readers = 0)
    (hi : s.logger.multis[i]? = some ⟨zone, logs⟩) :
    (run step s (.submit t i :: List.replicate (1 + 3 * logs.length) (.advance t))).2.logger
      = (outcome (Logger.submit i) s.logger).2 := by
  have hsubmit : outcome (Logger.submit i) s.logger
      = outcome (submitLogs i zone logs) s.logger := by
    rw [Logger.submit, outcome_bind_ok (outcome_get _), hi]
  have hstep : (step s (.submit t i)).2 = s.submit t i := by
    show (if s.crashed then s else if s.Free t i then s.submit t i else s) = _
    rw [if_neg (by simp [hcrash]), if_pos hfree]
  rw [hsubmit, run_cons, hstep, ← List.replicate_append_replicate, run_append]
  show (run step (step (s.submit t i) (.advance t)).2 _).2.logger = _
  by_cases hlogs : logs = []
  · subst hlogs
    have hcalled : s.submit t i = s.called i zone [] s.threads true := by
      simp only [State.submit, hi]
      rfl
    have hadvance : (s.called i zone [] s.threads true).advance t
        = s.called i zone [] s.threads true := by
      have hat : (s.called i zone [] s.threads true).threads[t]? = some .outside := hfree.1
      simp only [State.advance, hat]
    rw [hcalled, step_advance (by exact hcrash), hadvance]
    rfl
  · let s₁ := s.called i zone logs (s.threads.set t (.locking s.submits.length i)) false
    have hcalled : s.submit t i = s₁ := by
      simp only [State.submit, hi, if_neg hlogs, decide_eq_false hlogs]
      rfl
    have hat : s₁.threads[t]? = some (.locking s.submits.length i) := getElem?_moved hfree.1 _
    have hadvance : s₁.advance t
        = { s₁.moved t (.looping s.submits.length i) with writer := some t } := by
      simp only [State.advance, hat]
      exact if_pos ⟨hw, hr⟩
    rw [hcalled, step_advance (by exact hcrash), hadvance]
    exact loop_alone t s.submits.length i zone logs hcrash (getElem?_moved hat _) hi

/-- A thread that meets no other leaves the logger as `put_*` without threads does. -/
theorem put_alone {level : Level} {zone : ℤ} {msg : Text} (hcrash : s.crashed = false)
    (ht : s.threads[t]? = some .outside) (hw : s.writer = none) :
    (run step s (.put t level zone msg :: List.replicate 4 (.advance t))).2.logger
      = (outcome (Logger.put level zone msg) s.logger).2 := by
  by_cases hlog : s.logger.shouldLog level = true
  · let s₁ := s.moved t (.sharing level zone msg)
    let s₂ := { s₁.moved t (.putting level zone msg) with readers := s.readers + 1 }
    have hput : outcome (Logger.put level zone msg) s.logger
        = outcome (putText level zone msg) s.logger := by
      rw [Logger.put, outcome_bind_ok (outcome_get _), if_pos hlog]
      rfl
    have hstep : (step s (.put t level zone msg)).2 = s₁ := by
      show (if s.crashed then s else if _ then s₁ else s) = _
      rw [if_neg (by simp [hcrash]), if_pos ⟨ht, hlog⟩]
    have hat₁ : s₁.threads[t]? = some (.sharing level zone msg) := getElem?_moved ht _
    have hshare : s₁.advance t = s₂ := by
      simp only [State.advance, hat₁]
      exact if_pos hw
    have hat₂ : s₂.threads[t]? = some (.putting level zone msg) := getElem?_moved hat₁ _
    have hconsole : s₂.advance t = s₂.handConsole t none level zone msg (.putFiling level) := by
      simp only [State.advance, hat₂]
    have hfiles : ∀ hs text, (s₂.gave t none hs (.putFiling level text)).advance t
        = (s₂.gave t none hs (.putFiling level text)).handFiles t none level text .unsharing := by
      intro hs text
      have hat : (s₂.gave t none hs (.putFiling level text)).threads[t]?
          = some (.putFiling level text) := getElem?_moved hat₂ _
      simp only [State.advance, hat]
    have hrun : (run step s (.put t level zone msg :: List.replicate 4 (.advance t))).2
        = (step (run step s₂ [.advance t, .advance t]).2 (.advance t)).2 := by
      rw [run_cons, hstep]
      show (run step (step s₁ (.advance t)).2 (List.replicate 3 (.advance t))).2 = _
      rw [step_advance (by exact hcrash), hshare]
      rfl
    rw [hrun, hput]
    obtain ⟨e, s', hrun', hs', hout⟩ | ⟨hs, hs', text, hrun', hout⟩ :=
      putText_alone (s := s₂) hcrash hconsole hfiles
    · rw [hrun', step_crashed hs']
      exact (congrArg Prod.snd hout).symm
    · rw [hrun', step_advance (by exact hcrash)]
      have hat : ((s₂.gave t none hs (.putFiling level text)).gave t none hs'
          .unsharing).threads[t]? = some .unsharing := getElem?_moved (getElem?_moved hat₂ _) _
      simp only [State.advance, hat]
      exact (congrArg Prod.snd hout).symm
  · have hput : outcome (Logger.put level zone msg) s.logger = (.ok (), s.logger) := by
      rw [Logger.put, outcome_bind_ok (outcome_get _), if_neg hlog]
      rfl
    have hstep : (step s (.put t level zone msg)).2 = s := by
      show (if s.crashed then s else if _ then _ else s) = _
      rw [if_neg (by simp [hcrash]), if_neg fun h => hlog h.2]
    have hadvance : (step s (.advance t)).2 = s := by
      rw [step_advance hcrash]
      simp only [State.advance, ht]
    rw [hput]
    simp only [List.replicate, run_cons, hstep, hadvance, run_nil]

end Logger.Threads

end XCache
