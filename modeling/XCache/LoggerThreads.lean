import XCache.Logger

/-!
# The logger's threads

`Logger` and its `MultiLog`s, called by any number of threads while the configuration stays as it
is. A `put_*` shares `logger_lock`, and `submit` has it alone. `put_*_impl` hands a message to a
logger of the console, and after that to the one of the files, so a thread can be between the two;
`put` and `pop` of a `MultiLog` touch nothing that is shared. A `MultiLog` has no lock of its own:
while it is submitted, no other call of it is made. To read outside `logging_prefix`, or to use a
null pointer, ends the program.

Recorded, and not read by the code: what has been handed over, and by which `submit`; what has been
put into each `MultiLog`, what `should_log` has kept out of it, and what has been taken out again,
by `pop` or by `submit`; and the calls of `submit`.
-/

namespace XCache

namespace Logger.Threads

abbrev Entry := Text × Level

/-- The sink of the console to which `put_*_impl` hands a message. -/
def consoleSink (s : Logger.State) : Level → Option Sink
  | .critical => severe .critical
  | .error => severe .error
  | .warn => severe .warn
  | .info => if Level.info.num ≤ s.levelConsole then some .stdout else none
  | .debug => if s.levelConsole = Level.debug.num then some .stdout else none
where
  severe (level : Level) : Option Sink :=
    if level.num ≤ s.levelConsole then some (if s.stderrEnabled then .stderr else .stdout) else none

/-- The files, if `put_*_impl` hands a message to them. -/
def filesSink (s : Logger.State) : Level → Option Sink
  | .debug => if s.levelFiles = Level.debug.num then some .files else none
  | level => if level.num ≤ s.levelFiles then some .files else none

def logTo : Option Sink → Level → Text → Call Unit
  | none, _, _ => return
  | some sink, level, msg => log sink level msg

/-- Where a thread is. `c` is the number of its call of `submit`. -/
inductive Phase
  | outside
  | sharing (level : Level) (zone : ℤ) (msg : Text)  -- in `put_*`, before `std::shared_lock`
  | putting (level : Level) (zone : ℤ) (msg : Text)  -- before `put_*_impl`
  | putFiling (level : Level) (text : Text)  -- in `put_*_impl`, before its part for the files
  | unsharing  -- before the lock is released
  | locking (c i : ℕ)  -- in `submit`, before `std::unique_lock`
  | looping (c i : ℕ)  -- at `while(logs.size())`
  | filing (c i : ℕ) (level : Level) (text : Text)  -- in `put_*_impl`, as `putFiling`
  | popping (c i : ℕ)  -- before `logs.pop()`
  deriving DecidableEq

/-- The `MultiLog` that is being submitted. -/
def Phase.multi : Phase → Option ℕ
  | .locking _ i | .looping _ i | .filing _ i _ _ | .popping _ i => some i
  | .outside | .sharing _ _ _ | .putting _ _ _ | .putFiling _ _ | .unsharing => none

/-- A call of `submit`. -/
structure Submit where
  multi : ℕ
  zone : ℤ
  /-- The queue when it was called. -/
  batch : List Entry
  /-- What had been put into it until then. -/
  putBefore : List Entry
  /-- What had been taken out of it until then. -/
  goneBefore : List Entry
  returned : Bool

structure State where
  logger : Logger.State
  /-- The thread that has `logger_lock` alone. -/
  writer : Option ℕ
  /-- How many threads share it. -/
  readers : ℕ
  threads : List Phase
  crashed : Bool
  /-- What has been handed over, and in which `submit`, if in one. -/
  hands : List (Option ℕ × Handed)
  puts : ℕ → List Entry
  keptOut : ℕ → List Entry
  gone : ℕ → List Entry
  submits : List Submit

/-- `n` threads and a logger that is configured, without `MultiLog`s. -/
def start (n : ℕ) (cfg : Logger.State) : State where
  logger := { cfg with multis := [] }
  writer := none
  readers := 0
  threads := List.replicate n .outside
  crashed := false
  hands := []
  puts _ := []
  keptOut _ := []
  gone _ := []
  submits := []

namespace State

variable (s : State)

/-- The queue of `MultiLog` `i`. -/
def logs (i : ℕ) : List Entry := ((s.logger.multis[i]?).map MultiLog.logs).getD []

/-- Thread `t` may call `MultiLog` `i`: it is in no call, and no other thread submits it. -/
def Free (t i : ℕ) : Prop :=
  s.threads[t]? = some .outside ∧ ∀ p ∈ s.threads, p.multi ≠ some i

instance (t i : ℕ) : Decidable (s.Free t i) := by unfold Free; infer_instance

def moved (t : ℕ) (p : Phase) : State := { s with threads := s.threads.set t p }

/-- One part of `put_*_impl`. `c` is the `submit` it is called in, if any. -/
def hand (t : ℕ) (c : Option ℕ) (sink : Option Sink) (level : Level) (text : Text) (p : Phase) :
    State :=
  match outcome (logTo sink level text) s.logger with
  | (.ok (), logger) =>
    { s.moved t p with
      logger := logger
      hands := s.hands ++ sink.toList.map fun sink => (c, ⟨sink, level, text⟩) }
  | (.error _, _) => { s with crashed := true }

/-- `put_*_impl` of a message with its prefix, up to its part for the files. -/
def handConsole (t : ℕ) (c : Option ℕ) (level : Level) (zone : ℤ) (msg : Text)
    (p : Text → Phase) : State :=
  match outcome (withZone zone msg) s.logger with
  | (.ok text, _) => s.hand t c (consoleSink s.logger level) level text (p text)
  | (.error _, _) => { s with crashed := true }

def handFiles (t : ℕ) (c : Option ℕ) (level : Level) (text : Text) (p : Phase) : State :=
  s.hand t c (filesSink s.logger level) level text p

/-- `MultiLog::put`, past the check of a level given by its number. -/
def multiPut (i : ℕ) (level : Level) (msg : Text) : State :=
  if i < s.logger.multis.length then
    { s with
      logger := (outcome (Logger.multiPut i level msg) s.logger).2
      puts := if s.logger.shouldLog level then
          Function.update s.puts i (s.puts i ++ [(msg, level)]) else s.puts
      keptOut := if s.logger.shouldLog level then s.keptOut
          else Function.update s.keptOut i (s.keptOut i ++ [(msg, level)]) }
  else s

def multiPop (i : ℕ) : State :=
  { s with
    logger := (outcome (Logger.multiPop i) s.logger).2
    gone := Function.update s.gone i (s.gone i ++ (s.logs i).head?.toList) }

/-- `submit`, up to `std::unique_lock`. -/
def submit (t i : ℕ) : State :=
  match s.logger.multis[i]? with
  | none => s
  | some ⟨zone, logs⟩ =>
    { s with
      threads := if logs = [] then s.threads else s.threads.set t (.locking s.submits.length i)
      submits := s.submits ++ [⟨i, zone, logs, s.puts i, s.gone i, logs = []⟩] }

/-- The loop of `submit`, up to the files, or its end. -/
def loop (t c i : ℕ) : State :=
  match s.logger.multis[i]? with
  | some ⟨zone, (msg, level) :: _⟩ =>
    s.handConsole t (some c) level zone msg (.filing c i level)
  | some ⟨_, []⟩ | none =>
    { s.moved t .outside with
      writer := none
      submits := s.submits.modify c fun b => { b with returned := true } }

/-- The next step of thread `t`. -/
def advance (t : ℕ) : State :=
  match s.threads[t]? with
  | some (.sharing level zone msg) =>
    if s.writer = none then
      { s.moved t (.putting level zone msg) with readers := s.readers + 1 }
    else s
  | some (.putting level zone msg) => s.handConsole t none level zone msg (.putFiling level)
  | some (.putFiling level text) => s.handFiles t none level text .unsharing
  | some .unsharing => { s.moved t .outside with readers := s.readers - 1 }
  | some (.locking c i) =>
    if s.writer = none ∧ s.readers = 0 then
      { s.moved t (.looping c i) with writer := some t }
    else s
  | some (.looping c i) => s.loop t c i
  | some (.filing c i level text) => s.handFiles t (some c) level text (.popping c i)
  | some (.popping c i) => (s.multiPop i).moved t (.looping c i)
  | some .outside | none => s

end State

inductive Action
  | put (t : ℕ) (level : Level) (zone : ℤ) (msg : Text)
  | newMulti (zone : ℤ)
  | newMultiMin (zone minLevel : ℤ)
  | multiPut (t i : ℕ) (level : Level) (msg : Text)
  | multiPutNum (t i : ℕ) (msg : Text) (level : ℤ)
  | multiPop (t i : ℕ)
  | submit (t i : ℕ)
  | advance (t : ℕ)

def act (s : State) : Action → State
  | .put t level zone msg =>
    if s.threads[t]? = some .outside ∧ s.logger.shouldLog level = true then
      s.moved t (.sharing level zone msg)
    else s
  | .newMulti zone => { s with logger := (outcome (newMulti zone) s.logger).2 }
  | .newMultiMin zone minLevel =>
    { s with logger := (outcome (newMultiMin zone minLevel) s.logger).2 }
  | .multiPut t i level msg => if s.Free t i then s.multiPut i level msg else s
  | .multiPutNum t i msg level =>
    match Level.ofNum? level with
    | none => s
    | some level => if s.Free t i then s.multiPut i level msg else s
  | .multiPop t i => if s.Free t i then s.multiPop i else s
  | .submit t i => if s.Free t i then s.submit t i else s
  | .advance t => s.advance t

def step (s : State) (a : Action) : Unit × State := ((), if s.crashed then s else act s a)

end Logger.Threads

end XCache
