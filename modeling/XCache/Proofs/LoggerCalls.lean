import XCache.LoggerThreads

/-!
# The calls the logger's threads have made

A call of a `MultiLog` is made if the thread is in no other call and no thread is submitting it.
What the state records of these calls is what the steps of the run have made (`run_put`,
`run_keptOut`, `run_gone`, `run_submits`): a `put` is one of `puts` or, where `should_log` says no,
of `keptOut`; a `pop`, and each round of the loop of `submit`, takes the first message out, if there
is one.
-/

namespace XCache

namespace Logger.Threads

/-- A call of `put`: the thread, the `MultiLog` and the message. -/
def Action.put? : Action → Option (ℕ × ℕ × Entry)
  | .multiPut t i level msg => some (t, i, (msg, level))
  | .multiPutNum t i msg level => (Level.ofNum? level).map fun level => (t, i, (msg, level))
  | .put _ _ _ _ | .newMulti _ | .newMultiMin _ _ | .multiPop _ _ | .submit _ _ | .advance _ => none

/-- What `submit` keeps of its call until it returns. -/
def Submit.begun (b : Submit) : Submit := { b with returned := false }

namespace State

variable (s : State)

/-- Thread `t` makes a call of `MultiLog` `i`. -/
def Makes (t i : ℕ) : Prop := s.crashed = false ∧ s.Free t i

instance (t i : ℕ) : Decidable (s.Makes t i) := by unfold Makes; infer_instance

/-- The message a step gives to `MultiLog` `i`, for which `should_log` says `logged`. -/
def putIn (logged : Bool) (i : ℕ) (a : Action) : List Entry :=
  match a.put? with
  | some (t, j, e) =>
    if j = i ∧ s.Makes t j ∧ j < s.logger.multis.length ∧ s.logger.shouldLog e.2 = logged then [e]
    else []
  | none => []

/-- The message a step takes out of `MultiLog` `i`. -/
def takenOut (i : ℕ) : Action → List Entry
  | .multiPop t j => if j = i ∧ s.Makes t j then (s.logs i).head?.toList else []
  | .advance t =>
    match s.threads[t]? with
    | some (.popping _ j) => if j = i ∧ s.crashed = false then (s.logs i).head?.toList else []
    | _ => []
  | .put _ _ _ _ | .newMulti _ | .newMultiMin _ _ | .multiPut _ _ _ _ | .multiPutNum _ _ _ _
  | .submit _ _ => []

/-- The call of `submit` a step makes. -/
def submitting : Action → List Submit
  | .submit t i =>
    if s.Makes t i then
      (s.logger.multis[i]?).toList.map fun multi =>
        ⟨i, multi.zone, multi.logs, s.puts i, s.gone i, false⟩
    else []
  | .put _ _ _ _ | .newMulti _ | .newMultiMin _ _ | .multiPut _ _ _ _ | .multiPutNum _ _ _ _
  | .multiPop _ _ | .advance _ => []

end State

variable {s s' : State}

/-- The records of a state, and what a step adds to them. -/
structure Recorded (s : State) (put keptOut gone : ℕ → List Entry) (submits : List Submit)
    (s' : State) : Prop where
  puts : ∀ i, s'.puts i = s.puts i ++ put i
  keptOut : ∀ i, s'.keptOut i = s.keptOut i ++ keptOut i
  gone : ∀ i, s'.gone i = s.gone i ++ gone i
  submits : s'.submits.map Submit.begun = s.submits.map Submit.begun ++ submits

/-- The step adds nothing. -/
theorem Recorded.same (hputs : s'.puts = s.puts) (hkept : s'.keptOut = s.keptOut)
    (hgone : s'.gone = s.gone) (hsubmits : s'.submits = s.submits) :
    Recorded s (fun _ => []) (fun _ => []) (fun _ => []) [] s' where
  puts i := by rw [hputs, List.append_nil]
  keptOut i := by rw [hkept, List.append_nil]
  gone i := by rw [hgone, List.append_nil]
  submits := by rw [hsubmits, List.append_nil]

/-- One `MultiLog`'s record grows by a message. -/
theorem update_append (f : ℕ → List Entry) (j : ℕ) (es : List Entry) (i : ℕ) :
    Function.update f j (f j ++ es) i = f i ++ if j = i then es else [] := by
  by_cases hij : j = i
  · subst hij
    rw [Function.update_self, if_pos rfl]
  · rw [Function.update_of_ne (Ne.symm hij), if_neg hij, List.append_nil]

/-! ## The steps -/

theorem hand_records (t : ℕ) (c : Option ℕ) (sink : Option Sink) (level : Level) (text : Text)
    (p : Phase) :
    Recorded s (fun _ => []) (fun _ => []) (fun _ => []) [] (s.hand t c sink level text p) := by
  unfold State.hand
  split <;> exact .same rfl rfl rfl rfl

theorem handConsole_records (t : ℕ) (c : Option ℕ) (level : Level) (zone : ℤ) (msg : Text)
    (p : Text → Phase) :
    Recorded s (fun _ => []) (fun _ => []) (fun _ => [])
      [] (s.handConsole t c level zone msg p) := by
  unfold State.handConsole
  split
  · exact hand_records t c _ level _ _
  · exact .same rfl rfl rfl rfl

/-- A call of `submit` that returns is one that has been made. -/
theorem loop_records (t c i : ℕ) :
    Recorded s (fun _ => []) (fun _ => []) (fun _ => []) [] (s.loop t c i) := by
  have hleave : Recorded s (fun _ => []) (fun _ => []) (fun _ => [])
      [] { s.moved t .outside with
        writer := none
        submits := s.submits.modify c fun b => { b with returned := true } } := by
    refine ⟨fun _ => (List.append_nil _).symm, fun _ => (List.append_nil _).symm,
      fun _ => (List.append_nil _).symm, ?_⟩
    rw [List.append_nil]
    refine List.ext_getElem? fun n => ?_
    rw [List.getElem?_map, List.getElem?_map, List.getElem?_modify]
    rcases s.submits[n]? with _ | b
    · rfl
    · by_cases hn : c = n <;> simp [hn, Submit.begun]
  unfold State.loop
  split
  · exact handConsole_records t (some c) _ _ _ _
  · exact hleave
  · exact hleave

theorem advance_records (hrun : s.crashed = false) (t : ℕ) :
    Recorded s (fun _ => []) (fun _ => []) (fun i => s.takenOut i (.advance t))
      [] (s.advance t) := by
  rcases ht : s.threads[t]? with _ | p <;> simp only [State.advance, State.takenOut, ht]
  · exact .same rfl rfl rfl rfl
  · cases p with
    | outside | unsharing => exact .same rfl rfl rfl rfl
    | sharing level zone msg | locking c i =>
      dsimp only
      split <;> exact .same rfl rfl rfl rfl
    | putting level zone msg => exact handConsole_records t none level zone msg _
    | putFiling level text => exact hand_records t none _ level text _
    | looping c i => exact loop_records t c i
    | filing c i level text => exact hand_records t (some c) _ level text _
    | popping c j =>
      refine ⟨fun _ => (List.append_nil _).symm, fun _ => (List.append_nil _).symm, fun i => ?_,
        (List.append_nil _).symm⟩
      refine (update_append s.gone j _ i).trans ?_
      by_cases hij : j = i
      · subst hij
        simp [hrun]
      · simp [hij]

theorem multiPut_records {t i : ℕ} {e : Entry} (hmakes : s.Makes t i) :
    Recorded s
      (fun j => if i = j ∧ s.Makes t i ∧ i < s.logger.multis.length
        ∧ s.logger.shouldLog e.2 = true then [e] else [])
      (fun j => if i = j ∧ s.Makes t i ∧ i < s.logger.multis.length
        ∧ s.logger.shouldLog e.2 = false then [e] else [])
      (fun _ => []) [] (s.multiPut i e.2 e.1) := by
  unfold State.multiPut
  by_cases hi : i < s.logger.multis.length
  · rw [if_pos hi]
    refine ⟨fun j => ?_, fun j => ?_, fun _ => (List.append_nil _).symm, (List.append_nil _).symm⟩
    · rcases hlog : s.logger.shouldLog e.2 with _ | _
      · simp
      · simpa [hmakes, hi] using update_append s.puts i [e] j
    · rcases hlog : s.logger.shouldLog e.2 with _ | _
      · simpa [hmakes, hi] using update_append s.keptOut i [e] j
      · simp
  · rw [if_neg hi]
    simpa [hi] using Recorded.same (s := s) rfl rfl rfl rfl

theorem multiPop_records {t i : ℕ} (hmakes : s.Makes t i) :
    Recorded s (fun _ => []) (fun _ => []) (fun j => s.takenOut j (.multiPop t i))
      [] (s.multiPop i) := by
  refine ⟨fun _ => (List.append_nil _).symm, fun _ => (List.append_nil _).symm, fun j => ?_,
    (List.append_nil _).symm⟩
  refine (update_append s.gone i _ j).trans ?_
  by_cases hij : i = j
  · subst hij
    simp [State.takenOut, hmakes]
  · simp [State.takenOut, hij]

theorem submit_records {t i : ℕ} (hmakes : s.Makes t i) :
    Recorded s (fun _ => []) (fun _ => []) (fun _ => []) (s.submitting (.submit t i))
      (s.submit t i) := by
  simp only [State.submit, State.submitting, if_pos hmakes]
  rcases s.logger.multis[i]? with _ | ⟨zone, logs⟩
  · exact .same rfl rfl rfl rfl
  · refine ⟨fun _ => (List.append_nil _).symm, fun _ => (List.append_nil _).symm,
      fun _ => (List.append_nil _).symm, ?_⟩
    simp [Submit.begun]

/-- A step that makes no call leaves the records as they are. -/
theorem idle_records {a : Action} (hput : ∀ logged i, s.putIn logged i a = [])
    (htaken : ∀ i, s.takenOut i a = []) (hsubmit : s.submitting a = []) :
    Recorded s (fun i => s.putIn true i a) (fun i => s.putIn false i a)
      (fun i => s.takenOut i a) (s.submitting a) s := by
  simp only [hput, htaken, hsubmit]
  exact .same rfl rfl rfl rfl

/-- A step of a program that has ended. -/
theorem crashed_records (hend : s.crashed = true) (a : Action) :
    Recorded s (fun i => s.putIn true i a) (fun i => s.putIn false i a)
      (fun i => s.takenOut i a) (s.submitting a) s := by
  refine idle_records (fun logged i => ?_) (fun i => ?_) ?_
  · unfold State.putIn
    split <;> simp [State.Makes, hend]
  · unfold State.takenOut
    split
    · simp [State.Makes, hend]
    · split <;> simp [hend]
    all_goals rfl
  · unfold State.submitting
    split
    · simp [State.Makes, hend]
    all_goals rfl

/-- A call of `put`, with the level as it is or by its number. -/
theorem put_records (hrun : s.crashed = false) {a : Action} {t i : ℕ} {e : Entry}
    (ha : a.put? = some (t, i, e)) (htaken : ∀ i, s.takenOut i a = [])
    (hsubmit : s.submitting a = []) :
    Recorded s (fun i => s.putIn true i a) (fun i => s.putIn false i a)
      (fun i => s.takenOut i a) (s.submitting a)
      (if s.Free t i then s.multiPut i e.2 e.1 else s) := by
  by_cases hfree : s.Free t i
  · rw [if_pos hfree]
    simp only [State.putIn, ha, htaken, hsubmit]
    exact multiPut_records ⟨hrun, hfree⟩
  · rw [if_neg hfree]
    exact idle_records (fun _ _ => by simp [State.putIn, ha, State.Makes, hfree]) htaken hsubmit

theorem act_records (hrun : s.crashed = false) (a : Action) :
    Recorded s (fun i => s.putIn true i a) (fun i => s.putIn false i a)
      (fun i => s.takenOut i a) (s.submitting a) (act s a) := by
  cases a with
  | put t level zone msg =>
    dsimp only [act]
    split <;> exact .same rfl rfl rfl rfl
  | newMulti zone | newMultiMin zone minLevel => exact .same rfl rfl rfl rfl
  | multiPut t i level msg => exact put_records (e := (msg, level)) hrun rfl (fun _ => rfl) rfl
  | multiPutNum t i msg level =>
    dsimp only [act]
    rcases hlevel : Level.ofNum? level with _ | level'
    · exact idle_records (fun _ _ => by simp [State.putIn, Action.put?, hlevel]) (fun _ => rfl) rfl
    · exact put_records (e := (msg, level')) hrun (by simp [Action.put?, hlevel]) (fun _ => rfl) rfl
  | multiPop t i =>
    dsimp only [act]
    by_cases hfree : s.Free t i
    · rw [if_pos hfree]
      exact multiPop_records ⟨hrun, hfree⟩
    · rw [if_neg hfree]
      exact idle_records (fun _ _ => rfl)
        (fun _ => by simp [State.takenOut, State.Makes, hfree]) rfl
  | submit t i =>
    dsimp only [act]
    by_cases hfree : s.Free t i
    · rw [if_pos hfree]
      exact submit_records ⟨hrun, hfree⟩
    · rw [if_neg hfree]
      exact idle_records (fun _ _ => rfl) (fun _ => rfl)
        (by simp [State.submitting, State.Makes, hfree])
  | advance t => exact advance_records hrun t

/-- What a step adds to the records. -/
theorem step_records (s : State) (a : Action) :
    Recorded s (fun i => s.putIn true i a) (fun i => s.putIn false i a)
      (fun i => s.takenOut i a) (s.submitting a) (step s a).2 := by
  unfold step
  by_cases hend : s.crashed = true
  · simp only [if_pos hend]
    exact crashed_records hend a
  · simp only [if_neg hend]
    exact act_records (by simpa using hend) a

/-! ## The runs -/

theorem run_put (n : ℕ) (cfg : Logger.State) (as : List Action) (i : ℕ) :
    (run step (start n cfg) as).2.puts i
      = incoming (fun s a => s.putIn true i a) step (start n cfg) as :=
  run_record _ (fun s => s.puts i) (fun s a => (step_records s a).puts i) _ as

theorem run_keptOut (n : ℕ) (cfg : Logger.State) (as : List Action) (i : ℕ) :
    (run step (start n cfg) as).2.keptOut i
      = incoming (fun s a => s.putIn false i a) step (start n cfg) as :=
  run_record _ (fun s => s.keptOut i) (fun s a => (step_records s a).keptOut i) _ as

theorem run_gone (n : ℕ) (cfg : Logger.State) (as : List Action) (i : ℕ) :
    (run step (start n cfg) as).2.gone i
      = incoming (fun s a => s.takenOut i a) step (start n cfg) as :=
  run_record _ (fun s => s.gone i) (fun s a => (step_records s a).gone i) _ as

theorem run_submits (n : ℕ) (cfg : Logger.State) (as : List Action) :
    (run step (start n cfg) as).2.submits.map Submit.begun
      = incoming State.submitting step (start n cfg) as :=
  run_record _ (fun s => s.submits.map Submit.begun) (fun s a => (step_records s a).submits) _ as

end Logger.Threads

end XCache
