import XCache.Lib.Machine

/-!
# The Redis subscriber

`RedisSub` and `SubManager` of `redis/redis_subscriber.{h,cpp}`. `init`, `subscribe` and `uninit`
are called from one thread, `connect` from another, which then runs the event loop. Each section
under `connect_lock` is one step, and so is each call hiredis makes back. Which step is next is
free; one its thread cannot take does nothing.

Of hiredis and libevent: what `connect` is given comes with the action; hiredis may call back at any
time about a context it has not freed, whose connection has been made, could not be made or is
closed, and in the last two cases frees it afterwards; `event_base_dispatch` and `cv.wait` may
return at any time. Contexts are numbered as they are created. The replies of Redis and what goes to
the logger are left out.
-/

namespace XCache

namespace SubManager

/-- The functions of hiredis that are given `redis_ctx`. -/
inductive Function
  | redisAsyncDisconnect
  | redisAsyncCommand
  | redisAsyncFree
  deriving DecidableEq

/-- A call of one of them, and whether the context has not been freed. -/
structure Handed where
  function : Function
  ctx : ℕ
  live : Bool
  deriving DecidableEq

inductive RedisError
  | baseCreation
  | nullContext
  | connectionInit (res : ℤ)
  | connection
  deriving DecidableEq

def RedisError.what : RedisError → String
  | .baseCreation => "event_base creation failed"
  | .nullContext => "redis context is null"
  | .connectionInit res => "connection init exception: " ++ toString res
  | .connection => "connection exception"

/-- How a call ends. -/
inductive Ret
  | void
  | int (n : ℤ)
  | throws (e : RedisError)
  deriving DecidableEq

/-- What a step does that others see: the calls of hiredis, and the end of a call. -/
structure Out where
  handed : List Handed
  ret : Option Ret
  deriving DecidableEq

structure State where
  /-- `redis` is not `nullptr`. -/
  redis : Bool
  /-- `redis_ctx`, where `none` is `NULL`. -/
  redisCtx : Option ℕ
  status : ℤ
  running : Bool
  /-- `connect` is in `event_base_dispatch`. -/
  dispatching : Bool
  /-- `uninit` is in `cv.wait`. -/
  waiting : Bool
  /-- The number of contexts created. -/
  created : ℕ
  freed : List ℕ
  /-- The contexts hiredis has called back about that their connection could not be made, or is
  closed. -/
  ended : List ℕ
  deriving DecidableEq

/-- The constructor. -/
def construct : State where
  redis := false
  redisCtx := none
  status := 0
  running := false
  dispatching := false
  waiting := false
  created := 0
  freed := []
  ended := []

variable (s : State)

/-- hiredis has created the context and not freed it. -/
def State.live (c : ℕ) : Bool := c < s.created && ! s.freed.contains c

/-- A call of `f` with `redis_ctx`, if it is not `NULL`. -/
def State.hand (f : Function) : List Handed :=
  match s.redisCtx with
  | some c => [⟨f, c, s.live c⟩]
  | none => []

/-! ## `RedisSub` -/

/-- `RedisSub::free`. -/
def free : List Handed × State :=
  (s.hand .redisAsyncFree,
    { s with redisCtx := none, freed := s.freed ++ s.redisCtx.toList })

/-- What `redisAsyncConnectWithOptions` returns: no context, or one with its `err`; then, if
`redisLibeventAttach` fails, the `err` of the context after that. -/
inductive Opening
  | null
  | context (err : ℤ) (attachErr : Option ℤ)

/-- `RedisSub::connect`. -/
def redisConnect : Opening → ℤ × List Handed × State
  | .null => (-1, [], { s with redisCtx := none })
  | .context err attachErr =>
    let s' := { s with redisCtx := some s.created, created := s.created + 1 }
    if err ≠ 0 then (err, free s')
    else
      match attachErr with
      | some err => (err, free s')
      | none => (0, [], s')

/-- `RedisSub::disconnect`. -/
def redisDisconnect : List Handed := s.hand .redisAsyncDisconnect

/-- `RedisSub::subscribe`, where `res` is what `redisAsyncCommand` returns. -/
def redisSubscribe (res : ℤ) : List Handed × Ret :=
  match s.redisCtx with
  | none => ([], .throws .nullContext)
  | some _ => (s.hand .redisAsyncCommand, .int res)

/-! ## `SubManager` -/

/-- `init`, where `event_base_new` may fail. -/
def init (base : Bool) : Ret × State :=
  let s' := { s with status := 0, running := false, redisCtx := none }
  if base then (.void, { s' with redis := true }) else (.throws .baseCreation, s')

/-- `SubManager::free`. -/
def managerFree : State := { s with redis := false, redisCtx := none, status := 0 }

/-- `uninit`, up to its wait where it waits. -/
def uninit : Out × State :=
  if s.redis = false then (⟨[], some .void⟩, s)
  else if s.running then (⟨redisDisconnect s, none⟩, { s with waiting := true })
  else (⟨[], some .void⟩, managerFree s)

/-- `connect` up to the event loop. -/
def connect (opening : Opening) : Out × State :=
  if s.redis = false then (⟨[], some .void⟩, s)
  else
    let (res, handed, s') := redisConnect { s with running := true } opening
    if res ≠ 0 then (⟨handed, some (.throws (.connectionInit res))⟩, { s' with running := false })
    else (⟨handed, none⟩, { s' with dispatching := true })

/-- `connect` from the end of the event loop. -/
def connectEnd : Out × State :=
  (⟨[], some (if s.status = -1 then .throws .connection else .void)⟩,
    { s with running := false, dispatching := false })

def subscribe (res : ℤ) : Out × State :=
  if s.redis = false then (⟨[], some (.int (-1))⟩, s)
  else (⟨(redisSubscribe s res).1, some (redisSubscribe s res).2⟩, s)

/-- `connect_cb` and `connect_callback`. -/
def connectCallback (c : ℕ) (ok : Bool) : State :=
  if ok then { s with status := 1 }
  else { s with status := -1, freed := s.freed ++ [c], ended := s.ended ++ [c] }

/-- `disconnect_cb` and `disconnect_callback`. -/
def disconnectCallback (c : ℕ) (ok : Bool) : State :=
  { s with
    status := if ok then 0 else -1
    freed := s.freed ++ [c]
    ended := s.ended ++ [c] }

/-- What may happen next. -/
inductive Action
  | init (base : Bool)
  | connect (opening : Opening)
  | connectEnd
  | subscribe (res : ℤ)
  | uninit
  /-- `uninit` returns from `cv.wait`. -/
  | wake
  | connectCallback (c : ℕ) (ok : Bool)
  | disconnectCallback (c : ℕ) (ok : Bool)

/-- A step that nobody sees anything of. -/
def quiet (s : State) : Out × State := (⟨[], none⟩, s)

def step (s : State) : Action → Out × State
  | .init base =>
    if s.waiting then quiet s else (⟨[], some (init s base).1⟩, (init s base).2)
  | .connect opening => if s.dispatching then quiet s else connect s opening
  | .connectEnd => if s.dispatching then connectEnd s else quiet s
  | .subscribe res => if s.waiting then quiet s else subscribe s res
  | .uninit => if s.waiting then quiet s else uninit s
  | .wake =>
    if s.waiting then (⟨[], some .void⟩, { managerFree s with waiting := false }) else quiet s
  | .connectCallback c ok => quiet (if s.live c then connectCallback s c ok else s)
  | .disconnectCallback c ok => quiet (if s.live c then disconnectCallback s c ok else s)

end SubManager

end XCache
