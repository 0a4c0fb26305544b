import XCache.Logger

/-!
# Loggers that are set up

A level above `LOG_LEVEL_OFF` is stored only where the logger is set, by `setup` and by `set_level`
alike, so the console's level tells that stdout is set and the files' level that the files are.
`set_stderr` stores its flag without looking: where it is called with `true` only once `setup` has
made the logger for stderr (`Careful`), nothing null is dereferenced, and any other such call can be
followed by a message that goes to a null pointer (`uses_set_up_iff`).
-/

namespace XCache

namespace Logger

variable {s : State}

/-- No null pointer was dereferenced. -/
def UsesSetUp {α : Type} : Except Failure α → Prop
  | .error (.nullLogger _) => False
  | .ok _ | .error (.logger _) | .error .zoneOutside => True

instance {α : Type} : (r : Except Failure α) → Decidable (UsesSetUp r)
  | .error (.nullLogger _) => inferInstanceAs (Decidable False)
  | .ok _ | .error (.logger _) | .error .zoneOutside => inferInstanceAs (Decidable True)

/-- stderr is enabled by `set_stderr` only where its logger is set. -/
def Careful (s : State) : Action → Prop
  | .setStderr enable => enable = true → s.loggerStderr = true
  | .setup _ _ | .setLevel _ _ | .put _ _ _ | .newMulti _ | .newMultiMin _ _ | .multiPut _ _ _
  | .multiPutNum _ _ _ | .multiPop _ | .submit _ => True

instance (s : State) : (a : Action) → Decidable (Careful s a)
  | .setStderr enable => inferInstanceAs (Decidable (enable = true → s.loggerStderr = true))
  | .setup _ _ | .setLevel _ _ | .put _ _ _ | .newMulti _ | .newMultiMin _ _ | .multiPut _ _ _
  | .multiPutNum _ _ _ | .multiPop _ | .submit _ => inferInstanceAs (Decidable True)

/-- What is switched on is set. -/
structure Inv (s : State) : Prop where
  console : 0 < s.levelConsole → s.loggerStdout = true
  files : 0 < s.levelFiles → s.loggerFiles = true
  stderr : s.stderrEnabled = true → s.loggerStderr = true
  console_le : s.levelConsole ≤ 5
  files_le : s.levelFiles ≤ 5

theorem construct_inv : Inv construct where
  console h := absurd h (by decide)
  files h := absurd h (by decide)
  stderr h := absurd h (by decide)
  console_le := by decide
  files_le := by decide

theorem Inv.updateMulti (h : Inv s) (i : ℕ)
    (f : List (Text × Level) → List (Text × Level)) : Inv (s.updateMulti i f) :=
  ⟨h.console, h.files, h.stderr, h.console_le, h.files_le⟩

/-! ## What a message is handed to -/

/-- The sinks to which a message of the level goes. -/
def State.sinks (s : State) (level : Level) : List Sink :=
  (if level.num ≤ s.levelConsole then
      [if s.stderrEnabled = true ∧ level.num ≤ Level.warn.num then .stderr else .stdout]
    else [])
    ++ if level.num ≤ s.levelFiles then [.files] else []

theorem State.sinks_of_above_warn {level : Level} (hl : ¬ level.num ≤ Level.warn.num) :
    s.sinks level = (if level.num ≤ s.levelConsole then [Sink.stdout] else [])
      ++ if level.num ≤ s.levelFiles then [Sink.files] else [] := by
  have hs : ¬ (s.stderrEnabled = true ∧ level.num ≤ Level.warn.num) := fun hs => hl hs.2
  rw [State.sinks, if_neg hs]

def State.hand (s : State) (hs : List Handed) : State := { s with handed := s.handed ++ hs }

theorem State.hand_nil (s : State) : s.hand [] = s := by
  rw [State.hand, List.append_nil]

theorem State.hand_hand (s : State) (hs hs' : List Handed) :
    (s.hand hs).hand hs' = s.hand (hs ++ hs') := by
  rw [State.hand, State.hand, State.hand, List.append_assoc]

theorem Inv.hand (h : Inv s) (hs : List Handed) : Inv (s.hand hs) :=
  ⟨h.console, h.files, h.stderr, h.console_le, h.files_le⟩

theorem Level.num_pos (level : Level) : 0 < level.num := by
  cases level <;> decide

theorem log_eq {sink : Sink} (h : s.isSet sink = true) (level : Level) (msg : Text) :
    outcome (log sink level msg) s = (.ok (), s.hand [⟨sink, level, msg⟩]) := by
  rw [log, outcome_bind_ok (outcome_get s), outcome_bind_throwIf (by simp [h])]
  rfl

theorem logIf_eq {c : Prop} [Decidable c] {sink : Sink} (h : c → s.isSet sink = true)
    (level : Level) (msg : Text) :
    outcome (logIf c sink level msg) s
      = (.ok (), s.hand ((if c then [sink] else []).map fun sink => ⟨sink, level, msg⟩)) := by
  by_cases hc : c
  · rw [if_pos hc, logIf, if_pos (decide_eq_true hc), log_eq (h hc)]
    rfl
  · rw [if_neg hc, logIf, if_neg (by simpa using hc), List.map_nil, State.hand_nil]
    rfl

/-- A message to a sink of the console, and to the files. -/
theorem logBoth_eq {c f : Prop} [Decidable c] [Decidable f] {sink : Sink}
    (hc : c → s.isSet sink = true) (hf : f → s.isSet .files = true) (level : Level) (msg : Text) :
    outcome (do logIf c sink level msg; logIf f .files level msg) s
      = (.ok (), s.hand (((if c then [sink] else []) ++ if f then [Sink.files] else []).map
          fun sink => ⟨sink, level, msg⟩)) := by
  have hf' : f → (s.hand ((if c then [sink] else []).map fun sink => ⟨sink, level, msg⟩)).isSet
      .files = true := hf
  rw [outcome_bind_ok (logIf_eq hc level msg), logIf_eq hf' level msg, State.hand_hand,
    List.map_append]

section PutImpl

variable (h : Inv s) {level : Level}
include h

theorem Inv.isSet_stdout (hl : level.num ≤ s.levelConsole) : s.isSet .stdout = true :=
  h.console (level.num_pos.trans_le hl)

theorem Inv.isSet_files (hl : level.num ≤ s.levelFiles) : s.isSet .files = true :=
  h.files (level.num_pos.trans_le hl)

theorem Inv.isSet_console (hl : level.num ≤ s.levelConsole) :
    s.isSet (if s.stderrEnabled then .stderr else .stdout) = true := by
  split_ifs with he
  · exact h.stderr he
  · exact h.isSet_stdout hl

theorem putSevereImpl_eq (hl : level.num ≤ Level.warn.num) (msg : Text) :
    outcome (putSevereImpl level msg) s
      = (.ok (), s.hand ((s.sinks level).map fun sink => ⟨sink, level, msg⟩)) := by
  rw [putSevereImpl, outcome_bind_ok (outcome_get s), logBoth_eq h.isSet_console h.isSet_files]
  simp only [State.sinks, hl, and_true]

theorem putInfoImpl_eq (msg : Text) :
    outcome (putInfoImpl msg) s
      = (.ok (), s.hand ((s.sinks .info).map fun sink => ⟨sink, .info, msg⟩)) := by
  rw [putInfoImpl, outcome_bind_ok (outcome_get s), logBoth_eq h.isSet_stdout h.isSet_files,
    State.sinks_of_above_warn (by decide)]

/-- `==` does for `>=`: no level is above `LOG_LEVEL_DEBUG`. -/
theorem putDebugImpl_eq (msg : Text) :
    outcome (putDebugImpl msg) s
      = (.ok (), s.hand ((s.sinks .debug).map fun sink => ⟨sink, .debug, msg⟩)) := by
  have hconsole : s.levelConsole = Level.debug.num ↔ Level.debug.num ≤ s.levelConsole :=
    ⟨Eq.ge, fun hl => h.console_le.antisymm hl⟩
  have hfiles : s.levelFiles = Level.debug.num ↔ Level.debug.num ≤ s.levelFiles :=
    ⟨Eq.ge, fun hl => h.files_le.antisymm hl⟩
  rw [putDebugImpl, outcome_bind_ok (outcome_get s),
    logBoth_eq (fun hc => h.isSet_stdout (hconsole.1 hc)) fun hf => h.isSet_files (hfiles.1 hf),
    if_congr hconsole rfl rfl, if_congr hfiles rfl rfl, State.sinks_of_above_warn (by decide)]

theorem putImpl_eq (level : Level) (msg : Text) :
    outcome (putImpl level msg) s
      = (.ok (), s.hand ((s.sinks level).map fun sink => ⟨sink, level, msg⟩)) := by
  cases level with
  | critical => exact putSevereImpl_eq h (by decide) msg
  | error => exact putSevereImpl_eq h (by decide) msg
  | warn => exact putSevereImpl_eq h (by decide) msg
  | info => exact putInfoImpl_eq h msg
  | debug => exact putDebugImpl_eq h msg

end PutImpl

/-! ## Calls -/

/-- A level is stored only where the logger is set. -/
theorem storedLevel_set {asked isSet : Bool} {level stored : ℤ}
    (h : 0 < stored → isSet = true) (hpos : 0 < storedLevel asked isSet level stored) :
    isSet = true := by
  unfold storedLevel at hpos
  split_ifs at hpos with hc
  · simp only [Bool.and_eq_true] at hc
    exact hc.1.2
  · exact h hpos

theorem storedLevel_le {asked isSet : Bool} {level stored : ℤ} (h : stored ≤ 5) :
    storedLevel asked isSet level stored ≤ 5 := by
  unfold storedLevel
  split_ifs with hc
  · simp only [Bool.and_eq_true, decide_eq_true_eq] at hc
    exact hc.2.2
  · exact h

/-- From a state in which what is switched on is set, the program ends in such a state, and on its
way dereferences no null pointer. -/
def Keeps {α : Type} (x : Call α) : Prop :=
  ∀ s, Inv s → wp x (fun r t => UsesSetUp r ∧ Inv t) s

namespace Keeps

variable {α β : Type}

theorem pure (a : α) : Keeps (Pure.pure a : Call α) :=
  fun _ h => ⟨trivial, h⟩

theorem throw {e : Failure} (he : UsesSetUp (.error e : Except Failure α)) :
    Keeps (MonadExcept.throw e : Call α) :=
  fun _ h => ⟨he, h⟩

theorem bind {x : Call α} {f : α → Call β} (hx : Keeps x) (hf : ∀ a, Keeps (f a)) :
    Keeps (x >>= f) := by
  intro s h
  refine wp_bind.2 (wp_mono (hx s h) fun r t ⟨hr, ht⟩ => ?_)
  cases r with
  | ok a => exact hf a t ht
  | error e => exact ⟨by cases e <;> exact hr, ht⟩

theorem map {x : Call α} (hx : Keeps x) (f : α → β) : Keeps (f <$> x) := by
  rw [map_eq_pure_bind]
  exact hx.bind fun a => .pure (f a)

theorem get {f : State → Call α} (hf : ∀ s, Inv s → wp (f s) (fun r t => UsesSetUp r ∧ Inv t) s) :
    Keeps (MonadState.get >>= f) :=
  fun s h => hf s h

theorem modify {f : State → State} (hf : ∀ s, Inv s → Inv (f s)) :
    Keeps (modify f : Call Unit) :=
  fun s h => ⟨trivial, hf s h⟩

theorem putImpl (level : Level) (msg : Text) : Keeps (putImpl level msg) := by
  intro s h
  rw [wp, putImpl_eq h]
  exact ⟨trivial, h.hand _⟩

theorem withZone (zone : ℤ) (msg : Text) : Keeps (withZone zone msg) := by
  unfold Logger.withZone
  split
  · exact .throw trivial
  · exact .pure _

theorem put (level : Level) (zone : ℤ) (msg : Text) : Keeps (put level zone msg) := by
  refine .get fun s h => ?_
  split_ifs
  · exact ((Keeps.withZone zone msg).bind fun text => .putImpl level text) s h
  · exact Keeps.pure () s h

/-! ### Configuration -/

theorem setupLogger {asked : Bool} {isSet : State → Bool} {making : Making}
    {assign enable : State → State} (ha : ∀ s, Inv s → Inv (assign s))
    (he : ∀ s, Inv s → Inv (enable (assign s))) :
    Keeps (setupLogger asked isSet making assign enable) := by
  refine .get fun s h => ?_
  split_ifs
  · cases making with
    | done => exact ⟨trivial, he s h⟩
    | fails what => exact ⟨trivial, h⟩
    | unregistered what => exact ⟨trivial, ha s h⟩
  · exact Keeps.pure () s h

theorem setup (logger : BitVec 32) (making : Sink → Making) : Keeps (setup logger making) := by
  have hlevel : (4 : ℤ) ≤ 5 := by decide
  refine .bind (.setupLogger (fun s h => ?_) fun s h => ?_) fun _ =>
    .bind (.setupLogger (fun s h => ?_) fun s h => ?_) fun _ =>
      .setupLogger (fun s h => ?_) fun s h => ?_
  · exact ⟨fun _ => rfl, h.files, h.stderr, h.console_le, h.files_le⟩
  · exact ⟨fun _ => rfl, h.files, h.stderr, hlevel, h.files_le⟩
  · exact ⟨h.console, h.files, fun _ => rfl, h.console_le, h.files_le⟩
  · exact ⟨h.console, h.files, fun _ => rfl, h.console_le, h.files_le⟩
  · exact ⟨h.console, fun _ => rfl, h.stderr, h.console_le, h.files_le⟩
  · exact ⟨h.console, fun _ => rfl, h.stderr, h.console_le, hlevel⟩

theorem setLevel (type : BitVec 32) (level : ℤ) : Keeps (setLevel type level) :=
  .modify fun _ h =>
    { console := storedLevel_set h.console
      files := storedLevel_set h.files
      stderr := h.stderr
      console_le := storedLevel_le h.console_le
      files_le := storedLevel_le h.files_le }

/-! ### Batches -/

theorem newMulti (zone : ℤ) : Keeps (newMulti zone) :=
  .bind (.modify fun _ h => ⟨h.console, h.files, h.stderr, h.console_le, h.files_le⟩) fun _ =>
    .pure true

theorem newMultiMin (zone minLevel : ℤ) : Keeps (newMultiMin zone minLevel) := by
  unfold Logger.newMultiMin
  split
  · exact .pure false
  · refine .get fun s h => ?_
    split_ifs
    · exact Keeps.newMulti zone s h
    · exact Keeps.pure false s h

theorem multiPut (i : ℕ) (level : Level) (msg : Text) : Keeps (multiPut i level msg) := by
  refine .modify fun s h => ?_
  split_ifs
  · exact h.updateMulti i _
  · exact h

theorem multiPutNum (i : ℕ) (msg : Text) (level : ℤ) : Keeps (multiPutNum i msg level) := by
  unfold Logger.multiPutNum
  split
  · exact .pure ()
  · exact .multiPut i _ msg

theorem submitLogs (i : ℕ) (zone : ℤ) : ∀ logs, Keeps (submitLogs i zone logs)
  | [] => .pure ()
  | (msg, level) :: logs =>
    .bind (.withZone zone msg) fun text => .bind (.putImpl level text) fun _ =>
      .bind (.modify fun _ h => h.updateMulti i _) fun _ => submitLogs i zone logs

theorem submit (i : ℕ) : Keeps (submit i) := by
  refine .get fun s h => ?_
  split
  · exact Keeps.pure () s h
  · exact Keeps.submitLogs i _ _ s h

end Keeps

theorem call_keeps (h : Inv s) : ∀ {a : Action}, Careful s a →
    wp (call a) (fun r t => UsesSetUp r ∧ Inv t) s
  | .setup logger making, _ => (Keeps.setup logger making).map _ s h
  | .setLevel type level, _ => (Keeps.setLevel type level).map _ s h
  | .setStderr _, hc => ⟨trivial, h.console, h.files, hc, h.console_le, h.files_le⟩
  | .put level zone msg, _ => (Keeps.put level zone msg).map _ s h
  | .newMulti zone, _ => (Keeps.newMulti zone).map _ s h
  | .newMultiMin zone minLevel, _ => (Keeps.newMultiMin zone minLevel).map _ s h
  | .multiPut i level msg, _ => (Keeps.multiPut i level msg).map _ s h
  | .multiPutNum i msg level, _ => (Keeps.multiPutNum i msg level).map _ s h
  | .multiPop i, _ => Keeps.map (.modify fun _ h => h.updateMulti i _) _ s h
  | .submit i, _ => (Keeps.submit i).map _ s h

/-! ## Runs -/

/-- In a run of careful calls nothing null is dereferenced. -/
theorem run_usesSetUp (is : List Action) (h : RunOk step Careful construct is) :
    ∀ o ∈ (run step construct is).1, UsesSetUp o :=
  run_outputs (I := Inv) (fun _ _ hs hc => (call_keeps hs hc).2)
    (fun _ _ hs hc => (call_keeps hs hc).1) construct is construct_inv h

/-- stderr is enabled without a logger. -/
def Dangling (s : State) : Prop := s.stderrEnabled = true ∧ s.loggerStderr = false

/-- `setup` of stdout, a level for it, and a message that goes to stderr. -/
def exposing : List Action :=
  [.setup 1 fun _ => .done, .setLevel 1 Level.info.num, .put .critical 0 []]

theorem exposing_careful (s : State) : RunOk step Careful s exposing :=
  ⟨trivial, trivial, trivial, trivial⟩

theorem setup_stdout (h : Dangling s) :
    Dangling (step s (.setup 1 fun _ => .done)).2
      ∧ (step s (.setup 1 fun _ => .done)).2.loggerStdout = true := by
  obtain ⟨levelConsole, levelFiles, stderrEnabled, shouldLog, loggerStdout, _⟩ := s
  cases loggerStdout
  · exact ⟨h, rfl⟩
  · exact ⟨h, rfl⟩

theorem setLevel_console (h : Dangling s) (hset : s.loggerStdout = true) :
    Dangling (step s (.setLevel 1 Level.info.num)).2
      ∧ Level.critical.num ≤ (step s (.setLevel 1 Level.info.num)).2.levelConsole
      ∧ (step s (.setLevel 1 Level.info.num)).2.shouldLog .critical = true := by
  have hlevel : storedLevel true s.loggerStdout Level.info.num s.levelConsole = Level.info.num := by
    rw [hset]
    rfl
  have hcritical : Level.critical.num ≤ Level.info.num := by decide
  refine ⟨h, hcritical.trans hlevel.ge, ?_⟩
  exact decide_eq_true (hcritical.trans (hlevel.ge.trans (le_max_left _ _)))

theorem put_dangling (h : Dangling s) (hl : Level.critical.num ≤ s.levelConsole)
    (hs : s.shouldLog .critical = true) :
    (step s (.put .critical 0 [])).1 = .error (.nullLogger .stderr) := by
  have hset : s.isSet .stderr = false := h.2
  have hlog : ∀ msg, outcome (putImpl .critical msg) s = (.error (.nullLogger .stderr), s) := by
    intro msg
    have h1 : outcome (logIf (Level.critical.num ≤ s.levelConsole)
        (if s.stderrEnabled then .stderr else .stdout) .critical msg) s
          = (.error (.nullLogger .stderr), s) := by
      rw [logIf, if_pos (decide_eq_true hl), if_pos h.1, log, outcome_bind_ok (outcome_get s),
        outcome_bind_throws hset]
    rw [putImpl, putCriticalImpl, putSevereImpl, outcome_bind_ok (outcome_get s)]
    exact outcome_bind_error h1 _
  have hput : outcome (put .critical 0 []) s = (.error (.nullLogger .stderr), s) := by
    rw [put, outcome_bind_ok (outcome_get s), if_pos hs]
    exact hlog _
  exact congrArg Prod.fst (outcome_map _ hput)

theorem exposing_uses (h : Dangling s) : ¬ ∀ o ∈ (run step s exposing).1, UsesSetUp o := by
  obtain ⟨h1, hset⟩ := setup_stdout h
  obtain ⟨h2, hl, hs⟩ := setLevel_console h1 hset
  intro ho
  have hput := ho (step (step (step s (.setup 1 fun _ => .done)).2
    (.setLevel 1 Level.info.num)).2 (.put .critical 0 [])).1 (by simp [exposing])
  rw [put_dangling h2 hl hs] at hput
  exact hput

theorem dangling_of_not_careful {a : Action} (h : ¬ Careful s a) : Dangling (step s a).2 := by
  cases a with
  | setStderr enable =>
    simp only [Careful, Classical.not_imp, Bool.not_eq_true] at h
    exact h
  | _ => exact absurd trivial h

/-- In a run of careful calls nothing null is dereferenced. It stays so whatever careful calls
follow, exactly as long as the next call is careful. -/
theorem uses_set_up_iff (is : List Action) (h : RunOk step Careful construct is) :
    (∀ o ∈ (run step construct is).1, UsesSetUp o)
      ∧ ∀ a, Careful (run step construct is).2 a ↔
        ∀ more, RunOk step Careful (step (run step construct is).2 a).2 more →
          ∀ o ∈ (run step construct (is ++ a :: more)).1, UsesSetUp o :=
  run_exact run_usesSetUp
    (fun is hd => ⟨exposing, exposing_careful _, fun ho => exposing_uses hd fun o hmem => ho o (by
      rw [run_append]
      exact List.mem_append_right _ hmem)⟩)
    (fun _ _ _ hc => .here (dangling_of_not_careful hc)) is h

/-- stdout and stderr are set up, and stderr is switched off and on again. -/
theorem uses_set_up_iff_two :
    let is : List Action := [.setup 3 fun _ => .done, .setStderr false, .setStderr true]
    (∀ o ∈ (run step construct is).1, UsesSetUp o)
      ∧ ∀ a, Careful (run step construct is).2 a ↔
        ∀ more, RunOk step Careful (step (run step construct is).2 a).2 more →
          ∀ o ∈ (run step construct (is ++ a :: more)).1, UsesSetUp o :=
  uses_set_up_iff _ (by decide)

/-- stdout alone is set up, stderr switched on, and a critical message put. -/
theorem stderr_without_logger :
    ¬ ∀ o ∈ (run step construct
        [.setup 1 fun _ => .done, .setStderr true, .put .critical 0 []]).1, UsesSetUp o := by
  decide

end Logger

end XCache
