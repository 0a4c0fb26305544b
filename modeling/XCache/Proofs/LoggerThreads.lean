import XCache.LoggerThreads
import XCache.Lib.Pool
import XCache.Lib.Stretch
import XCache.Proofs.Logger

/-!
# Threads under the logger's lock

`put_*_impl` hands a message to the console and then to the files (`putImpl_parts`). The calls that
are not configuration leave the levels as they are (`SameConfig`), so what a message is handed to
depends on its level alone, and what `should_log` keeps out is for no sink (`sinksFor_kept_out`). A
step is one of a few (`Move`), and `logger_lock` is held by the threads in the sections under it
(`Locked`).
-/

namespace XCache

namespace Logger.Threads

/-! ## The two parts of `put_*_impl` -/

/-- The sinks to which `put_*_impl` hands a message, in this order. -/
def sinksFor (s : Logger.State) (level : Level) : List Sink :=
  (consoleSink s level).toList ++ (filesSink s level).toList

theorem logTo_ite (c : Prop) [Decidable c] (sink : Sink) (level : Level) (msg : Text) :
    logTo (if c then some sink else none) level msg = logIf c sink level msg := by
  by_cases hc : c
  · rw [if_pos hc, logIf, if_pos (decide_eq_true hc)]
    rfl
  · rw [if_neg hc, logIf, if_neg (by simpa using hc)]
    rfl

/-- `put_*_impl` hands a message to the console, and then to the files. -/
theorem putImpl_parts (level : Level) (msg : Text) :
    putImpl level msg = (do
      let s ← get
      logTo (consoleSink s level) level msg
      logTo (filesSink s level) level msg) := by
  cases level with
  | critical | error | warn =>
    simp only [consoleSink, consoleSink.severe, filesSink, logTo_ite]
    rfl
  | info | debug =>
    simp only [consoleSink, filesSink, logTo_ite]
    rfl

/-! ## The configuration -/

/-- What no call of `cfg` but `setup`, `set_level` and `set_stderr` changes. -/
structure SameConfig (cfg s : Logger.State) : Prop where
  console : s.levelConsole = cfg.levelConsole
  files : s.levelFiles = cfg.levelFiles
  stderr : s.stderrEnabled = cfg.stderrEnabled
  shouldLog : s.shouldLog = cfg.shouldLog

variable {cfg : Logger.State}

theorem SameConfig.rfl : SameConfig cfg cfg where
  console := .refl _
  files := .refl _
  stderr := .refl _
  shouldLog := .refl _

theorem SameConfig.consoleSink {s : Logger.State} (h : SameConfig cfg s) (level : Level) :
    consoleSink s level = consoleSink cfg level := by
  cases level <;> simp only [Threads.consoleSink, consoleSink.severe, h.console, h.stderr]

theorem SameConfig.filesSink {s : Logger.State} (h : SameConfig cfg s) (level : Level) :
    filesSink s level = filesSink cfg level := by
  cases level <;> simp only [Threads.filesSink, h.files]

theorem SameConfig.hand {s : Logger.State} (h : SameConfig cfg s) (hs : List Handed) :
    SameConfig cfg (s.hand hs) := ⟨h.console, h.files, h.stderr, h.shouldLog⟩

theorem SameConfig.updateMulti {s : Logger.State} (h : SameConfig cfg s) (i : ℕ)
    (f : List Entry → List Entry) : SameConfig cfg (s.updateMulti i f) :=
  ⟨h.console, h.files, h.stderr, h.shouldLog⟩

/-- A message for a sink, if for any. -/
def given (sink : Option Sink) (level : Level) (text : Text) : List Handed :=
  sink.toList.map fun sink => ⟨sink, level, text⟩

/-- A message is handed over, or a null pointer dereferenced. -/
theorem logTo_cases (sink : Option Sink) (level : Level) (msg : Text) (s : Logger.State) :
    outcome (logTo sink level msg) s = (.ok (), s.hand (given sink level msg))
      ∨ ∃ e, outcome (logTo sink level msg) s = (.error e, s) := by
  cases sink with
  | none => exact .inl (by rw [given, Option.toList_none, List.map_nil, State.hand_nil]; rfl)
  | some sink =>
    by_cases hset : s.isSet sink = true
    · exact .inl (log_eq hset level msg)
    · refine .inr ⟨.nullLogger sink, ?_⟩
      rw [logTo, log, outcome_bind_ok (outcome_get s), outcome_bind_throws (by simpa using hset)]

theorem putImpl_maintains (level : Level) (msg : Text) :
    Maintains (SameConfig cfg) (putImpl level msg) := by
  have hlog : ∀ sink, Maintains (SameConfig cfg) (logTo sink level msg) := by
    intro sink s h
    obtain heq | ⟨e, heq⟩ := logTo_cases sink level msg s
    · rw [heq]
      exact h.hand _
    · rwa [heq]
  rw [putImpl_parts]
  exact .get fun s h => ((hlog _).bind fun _ => hlog _) s h

theorem withZone_maintains {I : Logger.State → Prop} (zone : ℤ) (msg : Text) :
    Maintains I (withZone zone msg) := by
  unfold withZone
  split
  · exact .throw _
  · exact .pure _

theorem put_maintains (level : Level) (zone : ℤ) (msg : Text) :
    Maintains (SameConfig cfg) (put level zone msg) := by
  refine .get fun s h => ?_
  have hput : Maintains (SameConfig cfg) (withZone zone msg >>= fun text => putImpl level text) :=
    (withZone_maintains zone msg).bind fun text => putImpl_maintains level text
  split_ifs
  · exact hput s h
  · exact h

theorem newMulti_maintains (zone : ℤ) : Maintains (SameConfig cfg) (newMulti zone) :=
  .bind (.modify fun _ h => ⟨h.console, h.files, h.stderr, h.shouldLog⟩) fun _ => .pure true

theorem newMultiMin_maintains (zone minLevel : ℤ) :
    Maintains (SameConfig cfg) (newMultiMin zone minLevel) := by
  unfold newMultiMin
  split
  · exact .pure false
  · refine .get fun s h => ?_
    split_ifs
    · exact newMulti_maintains zone s h
    · exact h

theorem multiPut_maintains (i : ℕ) (level : Level) (msg : Text) :
    Maintains (SameConfig cfg) (Logger.multiPut i level msg) := by
  refine .modify fun s h => ?_
  split_ifs
  · exact h.updateMulti i _
  · exact h

theorem multiPutNum_maintains (i : ℕ) (msg : Text) (level : ℤ) :
    Maintains (SameConfig cfg) (Logger.multiPutNum i msg level) := by
  unfold Logger.multiPutNum
  split
  · exact .pure ()
  · exact multiPut_maintains i _ msg

theorem multiPop_maintains (i : ℕ) : Maintains (SameConfig cfg) (Logger.multiPop i) :=
  .modify fun _ h => h.updateMulti i _

theorem submitLogs_maintains (i : ℕ) (zone : ℤ) :
    ∀ logs, Maintains (SameConfig cfg) (submitLogs i zone logs)
  | [] => .pure ()
  | (msg, level) :: logs =>
    .bind (withZone_maintains zone msg) fun text => .bind (putImpl_maintains level text) fun _ =>
      .bind (.modify fun _ h => h.updateMulti i _) fun _ => submitLogs_maintains i zone logs

theorem submit_maintains (i : ℕ) : Maintains (SameConfig cfg) (Logger.submit i) := by
  refine .get fun s h => ?_
  split
  · exact h
  · exact submitLogs_maintains i _ _ s h

/-! ## What `should_log` keeps out -/

/-- `should_log` lets through what a sink is to be handed. -/
def Covers (s : Logger.State) : Prop :=
  ∀ level : Level, level.num ≤ s.levelConsole ∨ level.num ≤ s.levelFiles → s.shouldLog level = true

theorem Covers.same {s : Logger.State} (h : Covers cfg) (hs : SameConfig cfg s) : Covers s := by
  intro level hl
  rw [hs.console, hs.files] at hl
  rw [hs.shouldLog]
  exact h level hl

theorem sinksFor_kept_out (h : Covers cfg) {level : Level} (hout : cfg.shouldLog level = false) :
    sinksFor cfg level = [] := by
  have hno : ¬ (level.num ≤ cfg.levelConsole ∨ level.num ≤ cfg.levelFiles) := fun hl => by
    rw [h level hl] at hout
    cases hout
  obtain ⟨hc, hf⟩ := not_or.1 hno
  have hc' : consoleSink cfg level = none := by
    cases level with
    | critical | error | warn => exact if_neg hc
    | info => exact if_neg hc
    | debug => exact if_neg fun heq => hc heq.ge
  have hf' : filesSink cfg level = none := by
    cases level with
    | critical | error | warn | info => exact if_neg hf
    | debug => exact if_neg fun heq => hf heq.ge
  rw [sinksFor, hc', hf', Option.toList_none, List.append_nil]

theorem setup_covers (logger : BitVec 32) (making : Sink → Making) :
    Maintains Covers (setup logger making) := by
  have hpart : ∀ (asked : Bool) (isSet : Logger.State → Bool) (making : Making)
      (assign enable : Logger.State → Logger.State), (∀ s, Covers s → Covers (assign s)) →
      (∀ s, Covers s → Covers (enable (assign s))) →
      Maintains Covers (setupLogger asked isSet making assign enable) := by
    intro asked isSet making assign enable ha he
    refine .get fun s h => ?_
    split_ifs
    · cases making with
      | done => exact he s h
      | fails what => exact h
      | unregistered what => exact ha s h
    · exact h
  have hdefault : ∀ (s : Logger.State) (level : Level), s.shouldLog level = true →
      s.logDefault.shouldLog level = true := fun s level h => by
    simp [State.logDefault, h]
  have hfour : ∀ (s : Logger.State) (level : Level), level.num ≤ 4 →
      s.logDefault.shouldLog level = true := fun s level h => by
    simp [State.logDefault, upTo, h]
  refine .bind (hpart _ _ _ _ _ (fun s h => ?_) fun s h => ?_) fun _ =>
    .bind (hpart _ _ _ _ _ (fun s h => ?_) fun s h => ?_) fun _ =>
      hpart _ _ _ _ _ (fun s h => ?_) fun s h => ?_
  · exact h
  · intro level hl
    rcases hl with hl | hl
    · exact hfour _ level hl
    · exact hdefault _ level (h level (.inr hl))
  · exact h
  · exact h
  · exact h
  · intro level hl
    rcases hl with hl | hl
    · exact hdefault _ level (h level (.inl hl))
    · exact hfour _ level hl

theorem setLevel_covers (type : BitVec 32) (level : ℤ) :
    Maintains Covers (setLevel type level) :=
  .modify fun _ _ _ hl => decide_eq_true (le_max_iff.2 hl)

theorem call_covers {s : Logger.State} (h : Covers s) :
    ∀ a : Logger.Action, Covers (outcome (call a) s).2
  | .setup logger making => (setup_covers logger making).map _ s h
  | .setLevel type level => (setLevel_covers type level).map _ s h
  | .setStderr _ => h
  | .put level zone msg => h.same ((put_maintains level zone msg).map _ s .rfl)
  | .newMulti zone => h.same ((newMulti_maintains zone).map _ s .rfl)
  | .newMultiMin zone minLevel => h.same ((newMultiMin_maintains zone minLevel).map _ s .rfl)
  | .multiPut i level msg => h.same ((multiPut_maintains i level msg).map _ s .rfl)
  | .multiPutNum i msg level => h.same ((multiPutNum_maintains i msg level).map _ s .rfl)
  | .multiPop i => h.same ((multiPop_maintains i).map _ s .rfl)
  | .submit i => h.same ((submit_maintains i).map _ s .rfl)

theorem setting_covers (setting : List Logger.Action) :
    Covers (run Logger.step construct setting).2 :=
  run_invariant (I := Covers) (fun _ a hs _ => call_covers hs a) construct setting
    (fun level hl => absurd hl (by cases level <;> decide)) (RunOk.top _ _)

/-! ## Moves -/

/-- What a `MultiLog` puts before its messages. -/
def zoneText (zone : ℤ) : Text :=
  ((if zone < 0 then none else loggingPrefix[zone.toNat]?).map bytes).getD []

theorem withZone_cases (zone : ℤ) (msg : Text) (s : Logger.State) :
    outcome (withZone zone msg) s = (.ok (zoneText zone ++ msg), s)
      ∨ ∃ e, outcome (withZone zone msg) s = (.error e, s) := by
  unfold withZone zoneText
  split
  · exact .inr ⟨_, rfl⟩
  · next h =>
    rw [h]
    exact .inl rfl

namespace State

/-- Thread `t` has handed over `hs` in `submit` `c`, if in one. -/
def gave (s : State) (t : ℕ) (c : Option ℕ) (hs : List Handed) (p : Phase) : State :=
  { s.moved t p with
    logger := s.logger.hand hs
    hands := s.hands ++ hs.map (Prod.mk c) }

def crash (s : State) : State := { s with crashed := true }

/-- `MultiLog` `i` has been given the message. -/
def pushed (s : State) (i : ℕ) (e : Entry) : State :=
  { s with
    logger := s.logger.updateMulti i fun logs => logs ++ [e]
    puts := Function.update s.puts i (s.puts i ++ [e]) }

/-- `submit` `c` returns. -/
def left (s : State) (t c : ℕ) : State :=
  { s.moved t .outside with
    writer := none
    submits := s.submits.modify c fun b => { b with returned := true } }

/-- `submit` is called. -/
def called (s : State) (i : ℕ) (zone : ℤ) (logs : List Entry) (threads : List Phase)
    (returned : Bool) : State :=
  { s with
    threads := threads
    submits := s.submits ++ [⟨i, zone, logs, s.puts i, s.gone i, returned⟩] }

end State

/-- What a step may do to the state. -/
inductive Move (s : State) : State → Prop
  | idle : Move s s
  | crash : Move s s.crash
  | create (zone : ℤ) :
    Move s { s with logger := { s.logger with multis := s.logger.multis ++ [⟨zone, []⟩] } }
  | push (t i : ℕ) (e : Entry) (hfree : s.Free t i) (hi : i < s.logger.multis.length) :
    Move s (s.pushed i e)
  | keep (i : ℕ) (e : Entry) (hout : s.logger.shouldLog e.2 = false) :
    Move s { s with keptOut := Function.update s.keptOut i (s.keptOut i ++ [e]) }
  | pop (t i : ℕ) (hfree : s.Free t i) : Move s (s.multiPop i)
  | call (t : ℕ) (level : Level) (zone : ℤ) (msg : Text) (ht : s.threads[t]? = some .outside) :
    Move s (s.moved t (.sharing level zone msg))
  | share (t : ℕ) (level : Level) (zone : ℤ) (msg : Text)
    (ht : s.threads[t]? = some (.sharing level zone msg)) (hw : s.writer = none) :
    Move s { s.moved t (.putting level zone msg) with readers := s.readers + 1 }
  | putConsole (t : ℕ) (level : Level) (zone : ℤ) (msg text : Text)
    (ht : s.threads[t]? = some (.putting level zone msg)) :
    Move s (s.gave t none (given (consoleSink s.logger level) level text) (.putFiling level text))
  | putFiles (t : ℕ) (level : Level) (text : Text)
    (ht : s.threads[t]? = some (.putFiling level text)) :
    Move s (s.gave t none (given (filesSink s.logger level) level text) .unsharing)
  | unshare (t : ℕ) (ht : s.threads[t]? = some .unsharing) :
    Move s { s.moved t .outside with readers := s.readers - 1 }
  | submitEmpty (i : ℕ) (zone : ℤ) (hi : s.logger.multis[i]? = some ⟨zone, []⟩) :
    Move s (s.called i zone [] s.threads true)
  | submit (t i : ℕ) (zone : ℤ) (logs : List Entry) (hfree : s.Free t i)
    (hi : s.logger.multis[i]? = some ⟨zone, logs⟩) :
    Move s (s.called i zone logs (s.threads.set t (.locking s.submits.length i)) false)
  | lock (t c i : ℕ) (ht : s.threads[t]? = some (.locking c i)) (hw : s.writer = none)
    (hr : s.readers = 0) :
    Move s { s.moved t (.looping c i) with writer := some t }
  | console (t c i : ℕ) (zone : ℤ) (level : Level) (msg : Text) (logs : List Entry)
    (ht : s.threads[t]? = some (.looping c i))
    (hi : s.logger.multis[i]? = some ⟨zone, (msg, level) :: logs⟩) :
    Move s (s.gave t (some c) (given (consoleSink s.logger level) level (zoneText zone ++ msg))
      (.filing c i level (zoneText zone ++ msg)))
  | files (t c i : ℕ) (level : Level) (text : Text)
    (ht : s.threads[t]? = some (.filing c i level text)) :
    Move s (s.gave t (some c) (given (filesSink s.logger level) level text) (.popping c i))
  | popped (t c i : ℕ) (ht : s.threads[t]? = some (.popping c i)) :
    Move s ((s.multiPop i).moved t (.looping c i))
  | leave (t c i : ℕ) (ht : s.threads[t]? = some (.looping c i)) (hlogs : s.logs i = []) :
    Move s (s.left t c)

section Moves

variable {s : State}

theorem hand_cases (s : State) (t : ℕ) (c : Option ℕ) (sink : Option Sink) (level : Level)
    (text : Text) (p : Phase) :
    (outcome (logTo sink level text) s.logger = (.ok (), s.logger.hand (given sink level text))
        ∧ s.hand t c sink level text p = s.gave t c (given sink level text) p)
      ∨ ∃ e, outcome (logTo sink level text) s.logger = (.error e, s.logger)
        ∧ s.hand t c sink level text p = s.crash := by
  unfold State.hand
  obtain heq | ⟨e, heq⟩ := logTo_cases sink level text s.logger
  · refine .inl ⟨heq, ?_⟩
    rw [heq, State.gave, given, List.map_map]
    rfl
  · refine .inr ⟨e, heq, ?_⟩
    rw [heq]
    rfl

theorem handConsole_cases (s : State) (t : ℕ) (c : Option ℕ) (level : Level) (zone : ℤ)
    (msg : Text) (p : Text → Phase) :
    (outcome (withZone zone msg) s.logger = (.ok (zoneText zone ++ msg), s.logger)
        ∧ s.handConsole t c level zone msg p = s.hand t c (consoleSink s.logger level) level
          (zoneText zone ++ msg) (p (zoneText zone ++ msg)))
      ∨ ∃ e, outcome (withZone zone msg) s.logger = (.error e, s.logger)
        ∧ s.handConsole t c level zone msg p = s.crash := by
  unfold State.handConsole
  obtain heq | ⟨e, heq⟩ := withZone_cases zone msg s.logger
  · refine .inl ⟨heq, ?_⟩
    rw [heq]
  · refine .inr ⟨e, heq, ?_⟩
    rw [heq]
    rfl

theorem hand_move (t : ℕ) (c : Option ℕ) (sink : Option Sink) (level : Level) (text : Text)
    (p : Phase) (h : Move s (s.gave t c (given sink level text) p)) :
    Move s (s.hand t c sink level text p) := by
  obtain ⟨-, heq⟩ | ⟨e, -, heq⟩ := hand_cases s t c sink level text p
  · rw [heq]
    exact h
  · rw [heq]
    exact .crash

theorem handConsole_move (t : ℕ) (c : Option ℕ) (level : Level) (zone : ℤ) (msg : Text)
    (p : Text → Phase)
    (h : Move s (s.gave t c (given (consoleSink s.logger level) level (zoneText zone ++ msg))
      (p (zoneText zone ++ msg)))) :
    Move s (s.handConsole t c level zone msg p) := by
  obtain ⟨-, heq⟩ | ⟨e, -, heq⟩ := handConsole_cases s t c level zone msg p
  · rw [heq]
    exact hand_move t c _ level _ _ h
  · rw [heq]
    exact .crash

theorem multiPut_move {t i : ℕ} (hfree : s.Free t i) (level : Level) (msg : Text) :
    Move s (s.multiPut i level msg) := by
  unfold State.multiPut
  split_ifs with hi hlog
  · have heq : (outcome (Logger.multiPut i level msg) s.logger).2
        = s.logger.updateMulti i fun logs => logs ++ [(msg, level)] := if_pos hlog
    rw [heq]
    exact .push t i (msg, level) hfree hi
  · have heq : (outcome (Logger.multiPut i level msg) s.logger).2 = s.logger := if_neg hlog
    rw [heq]
    exact .keep i (msg, level) (by simpa using hlog)
  · exact .idle

theorem submit_move {t i : ℕ} (hfree : s.Free t i) : Move s (s.submit t i) := by
  unfold State.submit
  split
  · exact .idle
  · next zone logs hi =>
    by_cases hlogs : logs = []
    · subst hlogs
      exact .submitEmpty i zone hi
    · rw [if_neg hlogs, decide_eq_false hlogs]
      exact .submit t i zone logs hfree hi

theorem loop_move {t c i : ℕ} (ht : s.threads[t]? = some (.looping c i)) :
    Move s (s.loop t c i) := by
  unfold State.loop
  split
  · next zone msg level logs hi =>
    exact handConsole_move t _ level zone msg _ (.console t c i zone level msg logs ht hi)
  · next hi => exact .leave t c i ht (by rw [State.logs, hi]; rfl)
  · next hi => exact .leave t c i ht (by rw [State.logs, hi]; rfl)

theorem advance_move (t : ℕ) : Move s (s.advance t) := by
  unfold State.advance
  split
  · next level zone msg ht =>
    split_ifs with hw
    · exact .share t level zone msg ht hw
    · exact .idle
  · next level zone msg ht =>
    exact handConsole_move t none level zone msg _ (.putConsole t level zone msg _ ht)
  · next level text ht => exact hand_move t none _ level text _ (.putFiles t level text ht)
  · next ht => exact .unshare t ht
  · next c i ht =>
    split_ifs with h
    · exact .lock t c i ht h.1 h.2
    · exact .idle
  · next c i ht => exact loop_move ht
  · next c i level text ht => exact hand_move t _ _ level text _ (.files t c i level text ht)
  · next c i ht => exact .popped t c i ht
  · exact .idle
  · exact .idle

theorem newMultiMin_move (zone minLevel : ℤ) :
    Move s { s with logger := (outcome (newMultiMin zone minLevel) s.logger).2 } := by
  rcases hlevel : Level.ofNum? minLevel with _ | level
  · have heq : (outcome (newMultiMin zone minLevel) s.logger).2 = s.logger := by
      rw [newMultiMin, hlevel]
      rfl
    rw [heq]
    exact .idle
  · by_cases hlog : s.logger.shouldLog level = true
    · have heq : (outcome (newMultiMin zone minLevel) s.logger).2
          = (outcome (newMulti zone) s.logger).2 := by
        rw [newMultiMin, hlevel]
        show (outcome (if s.logger.shouldLog level then newMulti zone else return false) _).2 = _
        rw [if_pos hlog]
      rw [heq]
      exact .create zone
    · have heq : (outcome (newMultiMin zone minLevel) s.logger).2 = s.logger := by
        rw [newMultiMin, hlevel]
        show (outcome (if s.logger.shouldLog level then newMulti zone else return false) _).2 = _
        rw [if_neg hlog]
        rfl
      rw [heq]
      exact .idle

theorem act_move : ∀ a : Action, Move s (act s a)
  | .put t level zone msg => by
    dsimp only [act]
    split_ifs with h
    · exact .call t level zone msg h.1
    · exact .idle
  | .newMulti zone => .create zone
  | .newMultiMin zone minLevel => newMultiMin_move zone minLevel
  | .multiPut t i level msg => by
    dsimp only [act]
    split_ifs with h
    · exact multiPut_move h level msg
    · exact .idle
  | .multiPutNum t i msg level => by
    dsimp only [act]
    split
    · exact .idle
    · split_ifs with h
      · exact multiPut_move h _ msg
      · exact .idle
  | .multiPop t i => by
    dsimp only [act]
    split_ifs with h
    · exact .pop t i h
    · exact .idle
  | .submit t i => by
    dsimp only [act]
    split_ifs with h
    · exact submit_move h
    · exact .idle
  | .advance t => advance_move t

theorem step_move (a : Action) : Move s (step s a).2 := by
  unfold step
  dsimp only
  split_ifs
  · exact .idle
  · exact act_move a

end Moves

/-! ## Queues -/

variable {s s' : State}

theorem logs_updateMulti {i : ℕ} {f : List Entry → List Entry}
    (heq : s'.logger.multis = (s.logger.updateMulti i f).multis)
    (hi : i < s.logger.multis.length ∨ f [] = []) (j : ℕ) :
    s'.logs j = if i = j then f (s.logs i) else s.logs j := by
  unfold State.logs
  rw [heq, Logger.State.updateMulti, List.getElem?_modify]
  split_ifs with hij
  · subst hij
    rcases hm : s.logger.multis[i]? with _ | multi
    · rcases hi with hi | hi
      · exact absurd (List.getElem?_eq_none_iff.1 hm) (Nat.not_le.2 hi)
      · exact hi.symm
    · rfl
  · rcases s.logger.multis[j]? with _ | multi <;> rfl

theorem logs_multiPop (i j : ℕ) :
    (s.multiPop i).logs j = if i = j then (s.logs i).tail else s.logs j :=
  logs_updateMulti rfl (.inr rfl) j

theorem logs_pushed {i : ℕ} (hi : i < s.logger.multis.length) (e : Entry) (j : ℕ) :
    (s.pushed i e).logs j = if i = j then s.logs i ++ [e] else s.logs j :=
  logs_updateMulti (f := fun logs => logs ++ [e]) rfl (.inl hi) j

/-- A new `MultiLog` is empty. -/
theorem logs_create {zone : ℤ} (heq : s'.logger.multis = s.logger.multis ++ [⟨zone, []⟩]) (j : ℕ) :
    s'.logs j = s.logs j := by
  unfold State.logs
  rw [heq]
  rcases lt_or_ge j s.logger.multis.length with hj | hj
  · rw [List.getElem?_append_left hj]
  · rw [List.getElem?_append_right hj, List.getElem?_eq_none_iff.2 hj]
    rcases j - s.logger.multis.length with _ | k <;> rfl

/-- What has been put into a `MultiLog` has been taken out, in the same order, or is in it. -/
def Queued (s : State) : Prop := ∀ i, s.puts i = s.gone i ++ s.logs i

theorem Queued.multiPop (h : Queued s) (i : ℕ) : Queued (s.multiPop i) := by
  intro j
  rw [logs_multiPop]
  show s.puts j = Function.update s.gone i (s.gone i ++ (s.logs i).head?.toList) j ++ _
  split_ifs with hij
  · subst hij
    rw [Function.update_self, h i, List.append_assoc]
    cases s.logs i <;> rfl
  · rw [Function.update_of_ne (Ne.symm hij), h j]

theorem Queued.pushed (h : Queued s) {i : ℕ} (hi : i < s.logger.multis.length) (e : Entry) :
    Queued (s.pushed i e) := by
  intro j
  rw [logs_pushed hi]
  show Function.update s.puts i (s.puts i ++ [e]) j = _
  split_ifs with hij
  · subst hij
    rw [Function.update_self, h i, List.append_assoc]
    rfl
  · rw [Function.update_of_ne (Ne.symm hij), h j]
    rfl

theorem Move.queued (hm : Move s s') (h : Queued s) : Queued s' := by
  cases hm with
  | create zone => exact fun j => by rw [logs_create (s := s) rfl j]; exact h j
  | push t i e hfree hi => exact h.pushed hi e
  | pop t i hfree => exact h.multiPop i
  | popped t c i ht => exact h.multiPop i
  | _ => exact h

/-! ## What is recorded -/

theorem Move.config (hm : Move s s') (h : SameConfig cfg s.logger) : SameConfig cfg s'.logger := by
  cases hm with
  | create zone => exact ⟨h.console, h.files, h.stderr, h.shouldLog⟩
  | push t i e hfree hi => exact h.updateMulti i fun logs => logs ++ [e]
  | pop t i hfree => exact h.updateMulti i _
  | popped t c i ht => exact h.updateMulti i _
  | putConsole | putFiles | console | files => exact h.hand _
  | _ => exact h

/-- What a sink has been handed, it has been handed by a step of this run. -/
def Accounted (cfg : Logger.State) (s : State) : Prop :=
  s.logger.handed = cfg.handed ++ s.hands.map Prod.snd

theorem Accounted.gave (h : Accounted cfg s) (t : ℕ) (c : Option ℕ) (hs : List Handed) (p : Phase) :
    Accounted cfg (s.gave t c hs p) := by
  show s.logger.handed ++ hs = cfg.handed ++ (s.hands ++ hs.map (Prod.mk c)).map Prod.snd
  have hsnd : (Prod.snd ∘ Prod.mk c : Handed → Handed) = id := rfl
  rw [h, List.map_append, List.map_map, hsnd, List.map_id, List.append_assoc]

theorem Move.accounted (hm : Move s s') (h : Accounted cfg s) : Accounted cfg s' := by
  cases hm with
  | putConsole | putFiles | console | files => exact h.gave _ _ _ _
  | _ => exact h

/-- What `should_log` has kept out is for no sink. -/
def KeptOut (cfg : Logger.State) (s : State) : Prop :=
  ∀ i, ∀ e ∈ s.keptOut i, sinksFor cfg e.2 = []

theorem Move.keptOut (hm : Move s s') (hcfg : Covers cfg) (hsame : SameConfig cfg s.logger)
    (h : KeptOut cfg s) : KeptOut cfg s' := by
  cases hm with
  | keep i e hout =>
    intro j e' he'
    change e' ∈ Function.update s.keptOut i (s.keptOut i ++ [e]) j at he'
    by_cases hij : j = i
    · subst hij
      rw [Function.update_self] at he'
      rcases List.mem_append.1 he' with he' | he'
      · exact h j e' he'
      · obtain rfl := List.mem_singleton.1 he'
        exact sinksFor_kept_out hcfg (hsame.shouldLog ▸ hout)
    · rw [Function.update_of_ne hij] at he'
      exact h j e' he'
  | _ => exact h

/-! ## The lock -/

namespace Phase

/-- It has `logger_lock` alone. -/
def owns : Phase → Bool
  | .looping _ _ | .filing _ _ _ _ | .popping _ _ => true
  | .outside | .sharing _ _ _ | .putting _ _ _ | .putFiling _ _ | .unsharing | .locking _ _ => false

/-- It shares `logger_lock`. -/
def shares : Phase → Bool
  | .putting _ _ _ | .putFiling _ _ | .unsharing => true
  | .outside | .sharing _ _ _ | .locking _ _ | .looping _ _ | .filing _ _ _ _ | .popping _ _ =>
    false

end Phase

/-- `logger_lock` is held by the threads in the sections under it, by one alone or by any number. -/
structure Locked (s : State) : Prop where
  readers : s.readers = s.threads.countP Phase.shares
  writer : ∀ t, s.writer = some t ↔ ∃ p, s.threads[t]? = some p ∧ p.owns = true
  alone : s.writer ≠ none → s.readers = 0

variable {t : ℕ} {p q : Phase}

/-- Beside a thread that owns the lock, no other is in a section under it. -/
theorem Locked.only (h : Locked s) (ht : s.threads[t]? = some p) (hp : p.owns = true) {t' : ℕ}
    (ht' : s.threads[t']? = some q) : q.shares = false ∧ (q.owns = true → t' = t) := by
  have hw : s.writer = some t := (h.writer t).2 ⟨p, ht, hp⟩
  refine ⟨?_, fun hq => ?_⟩
  · have hzero : s.threads.countP Phase.shares = 0 := by
      rw [← h.readers]
      exact h.alone (by simp [hw])
    simpa using List.countP_eq_zero.1 hzero q (List.mem_of_getElem? ht')
  · have hw' : s.writer = some t' := (h.writer t').2 ⟨q, ht', hq⟩
    rw [hw] at hw'
    exact (Option.some.inj hw').symm

theorem owner_move (hs : ∀ u, s.writer = some u ↔ ∃ p, s.threads[u]? = some p ∧ p.owns = true)
    (ht : s.threads[t]? = some p) (hq : q.owns = p.owns) (u : ℕ) :
    s.writer = some u ↔ ∃ p, (s.threads.set t q)[u]? = some p ∧ p.owns = true := by
  rw [hs u]
  constructor
  · rintro ⟨r, hu, hr⟩
    by_cases hut : u = t
    · subst hut
      rw [ht] at hu
      obtain rfl := Option.some.inj hu
      exact ⟨q, List.getElem?_set_self (List.getElem?_eq_some_iff.1 ht).1, hq ▸ hr⟩
    · exact ⟨r, by rwa [List.getElem?_set_ne (Ne.symm hut)], hr⟩
  · rintro ⟨r, hu, hr⟩
    obtain ⟨rfl, rfl⟩ | ⟨-, hu⟩ := getElem?_move hu
    · exact ⟨p, ht, hq ▸ hr⟩
    · exact ⟨r, hu, hr⟩

/-- A thread moves on, inside a section or outside. -/
theorem Locked.move (h : Locked s) (ht : s.threads[t]? = some p)
    (hthreads : s'.threads = s.threads.set t q) (hshares : q.shares = p.shares)
    (howns : q.owns = p.owns) (hreaders : s'.readers = s.readers) (hwriter : s'.writer = s.writer) :
    Locked s' where
  readers := by
    have hc := countP_move (P := Phase.shares) (q := q) ht
    rw [hshares] at hc
    rw [hreaders, hthreads, h.readers]
    omega
  writer u := by
    rw [hwriter, hthreads]
    exact owner_move h.writer ht howns u
  alone hw := by
    rw [hreaders]
    exact h.alone (hwriter ▸ hw)

theorem Locked.share (h : Locked s) (ht : s.threads[t]? = some p) (hp : p.shares = false)
    (hq : q.shares = true) (howns : q.owns = p.owns) (hw : s.writer = none) :
    Locked { s.moved t q with readers := s.readers + 1 } where
  readers := by
    have hc := countP_move (P := Phase.shares) (q := q) ht
    rw [hp, hq] at hc
    show s.readers + 1 = (s.threads.set t q).countP Phase.shares
    rw [h.readers]
    simpa using hc.symm
  writer u := owner_move h.writer ht howns u
  alone hne := absurd hw hne

theorem Locked.unshare (h : Locked s) (ht : s.threads[t]? = some p) (hp : p.shares = true)
    (hq : q.shares = false) (howns : q.owns = p.owns) :
    Locked { s.moved t q with readers := s.readers - 1 } where
  readers := by
    have hc := countP_move (P := Phase.shares) (q := q) ht
    rw [hp, hq] at hc
    show s.readers - 1 = (s.threads.set t q).countP Phase.shares
    rw [h.readers]
    simp only [↓reduceIte, Bool.false_eq_true] at hc
    omega
  writer u := owner_move h.writer ht howns u
  alone hne := by
    show s.readers - 1 = 0
    rw [h.alone hne]

theorem Locked.lock (h : Locked s) (ht : s.threads[t]? = some p) (hp : p.shares = false)
    (hq : q.shares = false) (howns : q.owns = true) (hw : s.writer = none) (hr : s.readers = 0) :
    Locked { s.moved t q with writer := some t } where
  readers := by
    have hc := countP_move (P := Phase.shares) (q := q) ht
    rw [hp, hq] at hc
    show s.readers = (s.threads.set t q).countP Phase.shares
    rw [h.readers]
    simpa using hc.symm
  writer u := by
    show some t = some u ↔ ∃ p, (s.threads.set t q)[u]? = some p ∧ p.owns = true
    constructor
    · intro heq
      obtain rfl := Option.some.inj heq
      exact ⟨q, List.getElem?_set_self (List.getElem?_eq_some_iff.1 ht).1, howns⟩
    · rintro ⟨r, hu, hr⟩
      obtain ⟨rfl, -⟩ | ⟨-, hu⟩ := getElem?_move hu
      · rfl
      · have hwu := (h.writer u).2 ⟨r, hu, hr⟩
        rw [hw] at hwu
        cases hwu
  alone _ := hr

theorem Locked.unlock (h : Locked s) (ht : s.threads[t]? = some p) (hp : p.owns = true)
    (hthreads : s'.threads = s.threads.set t q) (hshares : q.shares = p.shares)
    (hq : q.owns = false) (hreaders : s'.readers = s.readers) (hwriter : s'.writer = none) :
    Locked s' where
  readers := by
    have hc := countP_move (P := Phase.shares) (q := q) ht
    rw [hshares] at hc
    rw [hreaders, hthreads, h.readers]
    omega
  writer u := by
    rw [hwriter, hthreads]
    constructor
    · nofun
    · rintro ⟨r, hu, hr⟩
      obtain ⟨-, rfl⟩ | ⟨hne, hu⟩ := getElem?_move hu
      · rw [hq] at hr
        cases hr
      · exact absurd ((h.only ht hp hu).2 hr) hne
  alone hne := absurd hwriter hne

theorem Move.locked (hm : Move s s') (h : Locked s) : Locked s' := by
  cases hm with
  | call t level zone msg ht => exact h.move ht rfl rfl rfl rfl rfl
  | share t level zone msg ht hw => exact h.share ht rfl rfl rfl hw
  | putConsole t level zone msg text ht => exact h.move ht rfl rfl rfl rfl rfl
  | putFiles t level text ht => exact h.move ht rfl rfl rfl rfl rfl
  | unshare t ht => exact h.unshare ht rfl rfl rfl
  | submit t i zone logs hfree hi => exact h.move hfree.1 rfl rfl rfl rfl rfl
  | lock t c i ht hw hr => exact h.lock ht rfl rfl rfl hw hr
  | console t c i zone level msg logs ht hi => exact h.move ht rfl rfl rfl rfl rfl
  | files t c i level text ht => exact h.move ht rfl rfl rfl rfl rfl
  | popped t c i ht => exact h.move ht rfl rfl rfl rfl rfl
  | leave t c i ht hlogs => exact h.unlock ht rfl rfl rfl rfl rfl rfl
  | _ => exact ⟨h.readers, h.writer, h.alone⟩

theorem start_locked (n : ℕ) (cfg : Logger.State) : Locked (start n cfg) where
  readers := by
    show 0 = (List.replicate n Phase.outside).countP Phase.shares
    rw [List.countP_replicate]
    rfl
  writer t := by
    constructor
    · nofun
    · rintro ⟨p, ht, hp⟩
      rw [List.eq_of_mem_replicate (List.mem_of_getElem? ht)] at hp
      cases hp
  alone h := absurd rfl h

end Logger.Threads

end XCache
