import XCache.Lib.Machine
import XCache.Lib.Program

/-!
# The logger

`Logger` and `Logger::MultiLog` of `utils/logger.{h,cpp}`, one call after the other. Of a spdlog
logger it is kept whether the pointer to it is set, and what it has been handed. What spdlog does
when `setup` makes a logger is a parameter: its constructors may throw before the pointer is set,
and `register_logger` once it is. Sinks and thread pools, which only `setup` reads, and only to make
each of them once, are left out.
-/

namespace XCache

namespace Logger

abbrev Text := List UInt8

def bytes (s : String) : Text := s.toUTF8.data.toList

/-- `LOG_LEVEL_CRITICAL` and the levels after it. -/
inductive Level
  | critical
  | error
  | warn
  | info
  | debug
  deriving DecidableEq

/-- The value of the enumerator. `LOG_LEVEL_OFF` is 0. -/
def Level.num : Level → ℤ
  | .critical => 1
  | .error => 2
  | .warn => 3
  | .info => 4
  | .debug => 5

def Level.ofNum? (n : ℤ) : Option Level :=
  if n = 1 then some .critical
  else if n = 2 then some .error
  else if n = 3 then some .warn
  else if n = 4 then some .info
  else if n = 5 then some .debug
  else none

inductive Sink
  | stdout
  | stderr
  | files
  deriving DecidableEq

/-- A message, as it is handed to a spdlog logger. -/
structure Handed where
  sink : Sink
  level : Level
  msg : Text
  deriving DecidableEq

structure MultiLog where
  zone : ℤ
  logs : List (Text × Level)

structure State where
  levelConsole : ℤ
  levelFiles : ℤ
  stderrEnabled : Bool
  shouldLog : Level → Bool
  loggerStdout : Bool
  loggerStderr : Bool
  loggerFiles : Bool
  /-- The `MultiLog`s of this logger, in the order they were made. -/
  multis : List MultiLog
  handed : List Handed

def construct : State where
  levelConsole := 0
  levelFiles := 0
  stderrEnabled := false
  shouldLog _ := false
  loggerStdout := false
  loggerStderr := false
  loggerFiles := false
  multis := []
  handed := []

inductive Failure
  | logger (err : Text)  -- `LoggerError`
  | nullLogger (sink : Sink)  -- a null pointer is dereferenced
  | zoneOutside  -- `logging_prefix` is read out of its bounds
  deriving DecidableEq

abbrev Call := EStateM Failure State

/-! ## Configuration -/

/-- What becomes of a logger that `setup` makes. -/
inductive Making
  | done
  | fails (what : Text)  -- before the pointer is set
  | unregistered (what : Text)  -- the pointer is set, and `register_logger` throws

def setupError (what : Text) : Failure := .logger (bytes "[*** LOG SETUP ERROR ***] " ++ what)

/-- One of the three parts of `setup`. -/
def setupLogger (asked : Bool) (isSet : State → Bool) (making : Making) (assign : State → State)
    (enable : State → State) : Call Unit := do
  let s ← get
  if asked && !isSet s then
    match making with
    | .fails what => throw (setupError what)
    | .unregistered what => do
      set (assign s)
      throw (setupError what)
    | .done => set (enable (assign s))
  else return

/-- `should_log`, for the levels up to `level`. -/
def upTo (level : ℤ) (i : Level) : Bool := i.num ≤ level

/-- `should_log[i].store(true)` for the levels up to `DEFAULT_LOG_LEVEL`. -/
def State.logDefault (s : State) : State :=
  { s with shouldLog := fun i => upTo 4 i || s.shouldLog i }

def setup (logger : BitVec 32) (making : Sink → Making) : Call Unit := do
  setupLogger (logger &&& 1 ≠ 0) State.loggerStdout (making .stdout)
    (fun s => { s with loggerStdout := true })
    (fun s => { s with levelConsole := 4 }.logDefault)
  setupLogger (logger &&& 2 ≠ 0) State.loggerStderr (making .stderr)
    (fun s => { s with loggerStderr := true })
    (fun s => { s with stderrEnabled := true })
  setupLogger (logger &&& 4 ≠ 0) State.loggerFiles (making .files)
    (fun s => { s with loggerFiles := true })
    (fun s => { s with levelFiles := 4 }.logDefault)

/-- `level` where the type is asked for, the logger set and the level in range, else what was
stored. -/
def storedLevel (asked isSet : Bool) (level stored : ℤ) : ℤ :=
  if asked && isSet && decide (0 ≤ level ∧ level ≤ 5) then level else stored

def setLevel (type : BitVec 32) (level : ℤ) : Call Unit :=
  modify fun s =>
    let levelConsole := storedLevel (type &&& 1 ≠ 0) s.loggerStdout level s.levelConsole
    let levelFiles := storedLevel (type &&& 2 ≠ 0) s.loggerFiles level s.levelFiles
    { s with
      levelConsole := levelConsole
      levelFiles := levelFiles
      shouldLog := upTo (max levelConsole levelFiles) }

def setStderr (enable : Bool) : Call Unit :=
  modify fun s => { s with stderrEnabled := enable }

/-! ## Messages -/

def loggingPrefix : List String :=
  ["[     main     ] ", "[   receiver   ] ", "[    parser    ] ", "[  conf_parser ] ",
    "[    cleaner   ] ", "[    deleter   ] ", "[    purger    ] ", "[    monitor   ] ",
    "[    sqlite    ] ", "[    redis     ] ", "[     lru      ] ", "[    lfuda     ] ",
    "[ lru(sqlite)  ] ", "[lfuda(sqlite) ] ", "[  lru(redis)  ] ", "[ lfuda(redis) ] "]

/-- `logging_prefix[zone] + msg`. -/
def withZone (zone : ℤ) (msg : Text) : Call Text :=
  match if zone < 0 then none else loggingPrefix[zone.toNat]? with
  | none => throw .zoneOutside
  | some text => return bytes text ++ msg

def State.isSet (s : State) : Sink → Bool
  | .stdout => s.loggerStdout
  | .stderr => s.loggerStderr
  | .files => s.loggerFiles

/-- The logger of the sink is handed the message. -/
def log (sink : Sink) (level : Level) (msg : Text) : Call Unit := do
  let s ← get
  throwIf (s.isSet sink = false) (.nullLogger sink)
  set { s with handed := s.handed ++ [Handed.mk sink level msg] }

def logIf (cond : Bool) (sink : Sink) (level : Level) (msg : Text) : Call Unit :=
  if cond then log sink level msg else return

/-- `put_critical_impl`, `put_error_impl` and `put_warn_impl`. -/
def putSevereImpl (level : Level) (msg : Text) : Call Unit := do
  let s ← get
  logIf (level.num ≤ s.levelConsole) (if s.stderrEnabled then .stderr else .stdout) level msg
  logIf (level.num ≤ s.levelFiles) .files level msg

def putCriticalImpl (msg : Text) : Call Unit := putSevereImpl .critical msg

def putErrorImpl (msg : Text) : Call Unit := putSevereImpl .error msg

def putWarnImpl (msg : Text) : Call Unit := putSevereImpl .warn msg

def putInfoImpl (msg : Text) : Call Unit := do
  let s ← get
  logIf (Level.info.num ≤ s.levelConsole) .stdout .info msg
  logIf (Level.info.num ≤ s.levelFiles) .files .info msg

def putDebugImpl (msg : Text) : Call Unit := do
  let s ← get
  logIf (s.levelConsole = Level.debug.num) .stdout .debug msg
  logIf (s.levelFiles = Level.debug.num) .files .debug msg

/-- The `switch` of `submit`. -/
def putImpl : Level → Text → Call Unit
  | .critical => putCriticalImpl
  | .error => putErrorImpl
  | .warn => putWarnImpl
  | .info => putInfoImpl
  | .debug => putDebugImpl

/-- `put_critical` to `put_debug`, both overloads: `msg` is what the arguments make together. -/
def put (level : Level) (zone : ℤ) (msg : Text) : Call Unit := do
  let s ← get
  if s.shouldLog level then do
    let text ← withZone zone msg
    putImpl level text
  else return

/-! ## Batches -/

def State.updateMulti (s : State) (i : ℕ) (f : List (Text × Level) → List (Text × Level)) : State :=
  { s with multis := s.multis.modify i fun multi => { multi with logs := f multi.logs } }

def newMulti (zone : ℤ) : Call Bool := do
  modify fun s => { s with multis := s.multis ++ [⟨zone, []⟩] }
  return true

/-- `new_multi` with a lowest level: whether it returns a batch. -/
def newMultiMin (zone minLevel : ℤ) : Call Bool :=
  match Level.ofNum? minLevel with
  | none => return false
  | some level => do
    let s ← get
    if s.shouldLog level then newMulti zone else return false

/-- `MultiLog::put_critical` to `MultiLog::put_debug`. -/
def multiPut (i : ℕ) (level : Level) (msg : Text) : Call Unit :=
  modify fun s =>
    if s.shouldLog level then s.updateMulti i fun logs => logs ++ [(msg, level)] else s

/-- `MultiLog::put`. -/
def multiPutNum (i : ℕ) (msg : Text) (level : ℤ) : Call Unit :=
  match Level.ofNum? level with
  | none => return
  | some level => multiPut i level msg

def multiPop (i : ℕ) : Call Unit := modify fun s => s.updateMulti i List.tail

/-- The loop of `submit`: a message is popped once it has been put. -/
def submitLogs (i : ℕ) (zone : ℤ) : List (Text × Level) → Call Unit
  | [] => return
  | (msg, level) :: logs => do
    let text ← withZone zone msg
    putImpl level text
    modify fun s => s.updateMulti i fun _ => logs
    submitLogs i zone logs

def submit (i : ℕ) : Call Unit := do
  let s ← get
  match s.multis[i]? with
  | none => return
  | some multi => submitLogs i multi.zone multi.logs

/-! ## Calls -/

inductive Action
  | setup (logger : BitVec 32) (making : Sink → Making)
  | setLevel (type : BitVec 32) (level : ℤ)
  | setStderr (enable : Bool)
  | put (level : Level) (zone : ℤ) (msg : Text)
  | newMulti (zone : ℤ)
  | newMultiMin (zone minLevel : ℤ)
  | multiPut (i : ℕ) (level : Level) (msg : Text)
  | multiPutNum (i : ℕ) (msg : Text) (level : ℤ)
  | multiPop (i : ℕ)
  | submit (i : ℕ)

inductive Ret
  | void
  | made (ok : Bool)
  deriving DecidableEq

def call : Action → Call Ret
  | .setup logger making => (fun _ => .void) <$> setup logger making
  | .setLevel type level => (fun _ => .void) <$> setLevel type level
  | .setStderr enable => (fun _ => .void) <$> setStderr enable
  | .put level zone msg => (fun _ => .void) <$> put level zone msg
  | .newMulti zone => .made <$> newMulti zone
  | .newMultiMin zone minLevel => .made <$> newMultiMin zone minLevel
  | .multiPut i level msg => (fun _ => .void) <$> multiPut i level msg
  | .multiPutNum i msg level => (fun _ => .void) <$> multiPutNum i msg level
  | .multiPop i => (fun _ => .void) <$> multiPop i
  | .submit i => (fun _ => .void) <$> submit i

def step (s : State) (a : Action) : Except Failure Ret × State := outcome (call a) s

end Logger

end XCache
