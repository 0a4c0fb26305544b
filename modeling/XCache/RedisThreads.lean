import XCache.RedisSubscriber

/-!
# The subscriber's two threads

`SubManager::connect` in one thread and `SubManager::uninit` in another, lock by lock: the sections
under `connect_lock` that `SubManager.step` takes whole are taken apart here, into what a thread
does between two things the other may see. `connect` and `uninit` may be called again and again,
after an `init`. `cv.wait` lets the lock go and sleeps at once; it may wake without a notification,
and takes the lock again. Where the threads are is said by `connect` and `uninit` here, and not by
the `dispatching` and `waiting` of the manager.
-/

namespace XCache

namespace SubManager.Threads

/-- Who has `connect_lock`. -/
inductive Holder
  | connect
  | uninit
  deriving DecidableEq

/-- Where the thread of `connect` is. -/
inductive ConnectPhase
  | outside
  | locking  -- before it locks `connect_lock`
  | checking  -- before `if(redis == nullptr)`
  | opening  -- `running` is set, before `redis->connect()`
  | failing (res : ℤ)  -- `redis->connect()` has returned an error, before `running = false`
  | unlocking  -- before `lock.unlock()`
  | dispatching  -- in `redis->run()`
  | relocking  -- before `lock.lock()`
  | ending  -- before `running = false`
  | notifying (ret : Ret)  -- before `cv.notify_one()`
  | leaving (ret : Ret)  -- before the end of the scope of `lock`
  deriving DecidableEq

/-- Where the thread of `uninit` is. -/
inductive UninitPhase
  | outside
  | locking  -- before it locks `connect_lock`
  | checking  -- before `if(redis == nullptr)`
  | disconnecting  -- before `redis->disconnect()`
  | blocking  -- before `cv.wait(lock)`
  | asleep  -- in `cv.wait`
  | woken  -- in `cv.wait`, before it locks `connect_lock` again
  | freeingWoken  -- before the `free()` after the wait
  | freeing  -- before the `free()` of an event loop that does not run
  | leaving  -- before the end of the scope of `lock`
  deriving DecidableEq

structure Out where
  handed : List Handed
  /-- `SubManager::free` has been executed. -/
  freed : Bool
  ret : Option Ret
  deriving DecidableEq

structure State where
  manager : SubManager.State
  connectLock : Option Holder
  connect : ConnectPhase
  uninit : UninitPhase
  deriving DecidableEq

/-- `init` has been called, with both threads outside, in whatever was left of a life before. -/
def start (m : SubManager.State) : State where
  manager := (init m true).2
  connectLock := none
  connect := .outside
  uninit := .outside

/-- A step that nobody sees anything of. -/
def quiet : Out := ⟨[], false, none⟩

variable (s : State)

/-- `running.store(b)`. -/
def State.setRunning (b : Bool) : SubManager.State := { s.manager with running := b }

/-- The next step of `connect`, where `opening` is what `redis->connect()` is given. -/
def connectStep (opening : Opening) : Out × State :=
  match s.connect with
  | .outside => (quiet, { s with connect := .locking })
  | .locking =>
    if s.connectLock = none then
      (quiet, { s with connectLock := some .connect, connect := .checking })
    else (quiet, s)
  | .checking =>
    if s.manager.redis = false then (quiet, { s with connect := .leaving .void })
    else (quiet, { s with manager := s.setRunning true, connect := .opening })
  | .opening =>
    let (res, handed, m) := redisConnect s.manager opening
    (⟨handed, false, none⟩,
      { s with manager := m, connect := if res ≠ 0 then .failing res else .unlocking })
  | .failing res =>
    (quiet, { s with
      manager := s.setRunning false
      connect := .leaving (.throws (.connectionInit res)) })
  | .unlocking => (quiet, { s with connectLock := none, connect := .dispatching })
  | .dispatching => (quiet, { s with connect := .relocking })
  | .relocking =>
    if s.connectLock = none then
      (quiet, { s with connectLock := some .connect, connect := .ending })
    else (quiet, s)
  | .ending =>
    (quiet, { s with
      manager := s.setRunning false
      connect := .notifying (if s.manager.status = -1 then .throws .connection else .void) })
  | .notifying ret =>
    (quiet, { s with
      connect := .leaving ret
      uninit := if s.uninit = .asleep then .woken else s.uninit })
  | .leaving ret =>
    (⟨[], false, some ret⟩, { s with connectLock := none, connect := .outside })

/-- The next step of `uninit`. -/
def uninitStep : Out × State :=
  match s.uninit with
  | .outside => (quiet, { s with uninit := .locking })
  | .locking =>
    if s.connectLock = none then
      (quiet, { s with connectLock := some .uninit, uninit := .checking })
    else (quiet, s)
  | .checking =>
    if s.manager.redis = false then (quiet, { s with uninit := .leaving })
    else if s.manager.running then (quiet, { s with uninit := .disconnecting })
    else (quiet, { s with uninit := .freeing })
  | .disconnecting => (⟨redisDisconnect s.manager, false, none⟩, { s with uninit := .blocking })
  | .blocking => (quiet, { s with connectLock := none, uninit := .asleep })
  | .asleep => (quiet, s)
  | .woken =>
    if s.connectLock = none then
      (quiet, { s with connectLock := some .uninit, uninit := .freeingWoken })
    else (quiet, s)
  | .freeingWoken | .freeing =>
    (⟨[], true, none⟩, { s with manager := managerFree s.manager, uninit := .leaving })
  | .leaving => (⟨[], false, some .void⟩, { s with connectLock := none, uninit := .outside })

/-- What may happen next. -/
inductive Action
  | connect (opening : Opening)
  | uninit
  /-- `cv.wait` wakes, without a notification. -/
  | wake
  | connectCallback (c : ℕ) (ok : Bool)
  | disconnectCallback (c : ℕ) (ok : Bool)

def step : Action → Out × State
  | .connect opening => connectStep s opening
  | .uninit => uninitStep s
  | .wake => (quiet, if s.uninit = .asleep then { s with uninit := .woken } else s)
  | .connectCallback c ok => (quiet, { s with
      manager := if s.manager.live c then connectCallback s.manager c ok else s.manager })
  | .disconnectCallback c ok => (quiet, { s with
      manager := if s.manager.live c then disconnectCallback s.manager c ok else s.manager })

end SubManager.Threads

end XCache
