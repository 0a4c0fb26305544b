import XCache.Lib.Program
import XCache.Lib.Machine

/-!
# The connection to Redis

`RedisBase` of `redis/redis_base.{h,cpp}`, and of `redis/redis_adapter.h` what `RedisAdapter` does
when a command fails. Each call is given what hiredis answers to it, attempt by attempt. A context
whose `err` is set returns NULL for every command, until `redisReconnect` succeeds on it. A loop of
`max_tries`, that is `maxRetries + 1`, attempts counts those that are left. What is logged is left
out, and so are the pauses.

The state records which contexts are alive, that is, obtained and not freed, and what they and
`redis_ctx` were whenever one of the two has changed: the code reads none of it.
-/

namespace XCache

namespace RedisBase

/-- `REDIS_ERR_IO` and so on. -/
inductive Err
  | io
  | eof
  | protocol
  | oom
  | timeout
  | other
  deriving DecidableEq

/-- `redis_ctx->err == REDIS_ERR_IO || redis_ctx->err == REDIS_ERR_EOF`. -/
def Err.lost : Err → Bool
  | .io | .eof => true
  | .protocol | .oom | .timeout | .other => false

/-- How a call ends that does not return: with a `RedisError`, or with the use of a null context. -/
inductive Failure
  | contextNotNull
  | cantAllocate
  | connecting (err : Err)
  | contextNull  -- before reconnecting
  | reconnecting (err : Err)
  | command (err : Option Err)
  | undefined
  deriving DecidableEq

structure Context where
  id : ℕ
  err : Option Err
  deriving DecidableEq

structure State where
  redisCtx : Option Context
  connected : Bool
  /-- The number of the next context. -/
  next : ℕ
  live : List ℕ
  moments : List (Option ℕ × List ℕ)
  deriving DecidableEq

abbrev Call := EStateM Failure State

/-- The constructor. -/
def construct : State where
  redisCtx := none
  connected := false
  next := 0
  live := []
  moments := [(none, [])]

/-- What `redisConnectWithOptions` returns. -/
inductive Connection
  | null
  | context (err : Option Err)
  deriving DecidableEq

/-- What hiredis answers to a `connect`: to each attempt, and to
`redisEnableKeepAliveWithInterval`, which sets `err` when it fails. -/
structure Connecting where
  connections : ℕ → Connection
  keepAlive : Option Err

/-- What hiredis answers to a `command`: to each attempt, on a context without `err`, and to each
attempt of the `reconnect` after it. -/
structure Commanding (ρ : Type) where
  answers : ℕ → Except Err ρ
  reconnects : ℕ → ℕ → Option Err

namespace State

variable (s : State)

def noted : State := { s with moments := s.moments ++ [(s.redisCtx.map Context.id, s.live)] }

/-- `redis_ctx = redisConnectWithOptions(&redis_opt);` -/
def assign : Connection → State
  | .null => { s with redisCtx := none }.noted
  | .context err =>
    { s with
      redisCtx := some ⟨s.next, err⟩
      next := s.next + 1
      live := s.live ++ [s.next] }.noted

/-- `redis_ctx->err`. -/
def err : Option Err := s.redisCtx.bind Context.err

def setErr (err : Option Err) : State :=
  { s with redisCtx := s.redisCtx.map fun c => { c with err := err } }

/-- `redisEnableKeepAliveWithInterval`. -/
def keepAlive : Option Err → State
  | none => s
  | some err => s.setErr (some err)

end State

/-- An attempt to connect: the `err` of the new context. -/
def tryConnect (c : Connection) : Call (Option Err) := do
  modify fun s => s.assign c
  let s ← get
  match s.redisCtx with
  | none => throw .cantAllocate
  | some ctx => return ctx.err

/-- The loop of `connect`. -/
def connectLoop (connections : ℕ → Connection) : ℕ → ℕ → Call Unit
  | 0, i => do
    match ← tryConnect (connections i) with
    | none => return
    | some err => throw (.connecting err)
  | left + 1, i => do
    match ← tryConnect (connections i) with
    | none => return
    | some _ => connectLoop connections left (i + 1)

variable (maxRetries : ℕ)

def connect (c : Connecting) : Call Unit := do
  let s ← get
  throwIf (s.redisCtx ≠ none) .contextNotNull
  connectLoop c.connections maxRetries 0
  modify fun s => s.keepAlive c.keepAlive
  modify fun s => { s with connected := true }

def disconnect : Call Unit :=
  modify fun s =>
    match s.redisCtx with
    | none => s
    | some c => { s with redisCtx := none, live := s.live.erase c.id, connected := false }.noted

/-- `redisReconnect`: the `err` it sets. -/
def redisReconnect (result : Option Err) : Call (Option Err) := do
  modify fun s => s.setErr result
  return result

/-- The loop of `reconnect`. -/
def reconnectLoop (results : ℕ → Option Err) : ℕ → ℕ → Call Unit
  | 0, i => do
    match ← redisReconnect (results i) with
    | none => return
    | some err => throw (.reconnecting err)
  | left + 1, i => do
    match ← redisReconnect (results i) with
    | none => return
    | some _ => reconnectLoop results left (i + 1)

def reconnect (results : ℕ → Option Err) : Call Unit := do
  modify fun s => { s with connected := false }
  let s ← get
  throwIf (s.redisCtx = none) .contextNull
  reconnectLoop results maxRetries 0
  modify fun s => { s with connected := true }

section Command

variable {ρ : Type}

/-- `redisCommand`. -/
def redisCommand (answer : Except Err ρ) : Call (Option ρ) := do
  let s ← get
  match s.redisCtx with
  | none => throw .undefined
  | some ⟨_, some _⟩ => return none
  | some ⟨_, none⟩ =>
    match answer with
    | .ok reply => return some reply
    | .error err => do
      modify fun s => s.setErr (some err)
      return none

/-- The loop of `command`. -/
def commandLoop (c : Commanding ρ) : ℕ → ℕ → Call ρ
  | 0, i => do
    match ← redisCommand (c.answers i) with
    | some reply => return reply
    | none => do
      let s ← get
      throw (.command s.err)
  | left + 1, i => do
    match ← redisCommand (c.answers i) with
    | some reply => return reply
    | none => do
      let s ← get
      (if s.err.any Err.lost then reconnect maxRetries (c.reconnects i) else pure () : Call Unit)
      commandLoop c left (i + 1)

def command (c : Commanding ρ) : Call ρ := commandLoop maxRetries c maxRetries 0

/-! ## The adapter -/

def reset (c : Connecting) : Call Unit := do
  disconnect
  connect maxRetries c

/-- `command_impl`: `first` is answered to its first `command`, `second` to the one of its own
retry, `c` to the `connect` before that, if there is one. -/
def commandImpl (upperRetry : Bool) (first second : Commanding ρ) (c : Connecting) : Call ρ :=
  tryCatch (command maxRetries first) fun e =>
    if e = .undefined ∨ upperRetry = false then throw e
    else do
      let s ← get
      if s.connected then command maxRetries second
      else do
        reset maxRetries c
        command maxRetries second

end Command

/-! ## Runs -/

inductive Action
  | connect (c : Connecting)
  | disconnect
  | reconnect (results : ℕ → Option Err)
  | destroy

def call : Action → Call Unit
  | .connect c => connect maxRetries c
  | .disconnect => disconnect
  | .reconnect results => reconnect maxRetries results
  | .destroy => disconnect

def step (s : State) (a : Action) : Except Failure Unit × State := outcome (call maxRetries a) s

end RedisBase

end XCache
