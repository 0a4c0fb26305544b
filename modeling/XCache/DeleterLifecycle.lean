import XCache.AsyncDeleter

/-!
# The deleter's lifecycle

`AsyncDeleter` of `io/async_deleter.{h,cpp}` from its constructor to its destructor: calls of `run`,
`submit`, `stop`, `force_stop` and `status`, one after the other, and the destruction, while the
threads of the pool run on. What the threads do in `io.run()`, and what `stop` does up to its end,
is `AsyncDeleter`'s model (`core`). A thread counts itself in `running_threads` once it is
scheduled, and off once `io.run()` has returned; until it is joined it is joinable, whether it still
runs or not. To destroy a joinable `std::thread` ends the program, and so, at best, does the use of
a null pointer.

The number of the calls of `run` that return is recorded: the code does not read it.
-/

namespace XCache

namespace AsyncDeleter

namespace Lifecycle

inductive Stage
  | created  -- before `running_threads.fetch_add(1)`
  | running  -- in `io.run()`
  | finished  -- past `running_threads.fetch_sub(1)`
  deriving DecidableEq

/-- An element of `thread_pool`. -/
structure Thread where
  stage : Stage
  joinable : Bool
  deriving DecidableEq

/-- The call in progress. `last` marks the `force_stop` of the destructor. -/
inductive Call
  | none
  | stopping  -- in `stop`, at the place `core` tells
  | forcing (last : Bool)  -- in `force_stop`, before `io.stop()`
  | joining (last : Bool)  -- in the `wait_thread` of `force_stop`
  | destroyed
  | crashed
  deriving DecidableEq

structure State where
  core : AsyncDeleter.State
  /-- `work_guard` is not null. -/
  workGuard : Bool
  runningThreads : ℕ
  threadPool : List Thread
  call : Call
  runs : ℕ
  deriving DecidableEq

/-- The constructor. -/
def construct : State where
  core := { AsyncDeleter.start 0 with guarded := false }
  workGuard := false
  runningThreads := 0
  threadPool := []
  call := .none
  runs := 0

inductive Answer
  | none
  | returned
  | threw
  | counts (runningThreads workingJobs : ℕ)
  | dereferenced  -- `work_guard->reset()` on a null pointer
  | terminated  -- by the destructor of a joinable `std::thread`
  deriving DecidableEq

namespace State

variable (s : State)

/-- `work_guard->reset()`, with which `stop` and `force_stop` begin. -/
def resetGuard (call : Call) : Answer × State :=
  if s.workGuard then
    (.none, { s with core := { s.core with guarded := false }, call := call })
  else (.dereferenced, { s with call := .crashed })

/-- All threads have finished: `wait_thread` does not block. -/
def allFinished : Bool := s.threadPool.all fun t => t.stage = .finished

/-- `wait_thread` joins the threads, and the call goes on. -/
def joined (call : Call) : State :=
  { s with
    threadPool := s.threadPool.map fun t => { t with joinable := false }
    call := call }

def submit (file : List UInt8) : State :=
  { s with core := (s.core.submit file).post s.core.submitting.length }

/-- `run`, for a pool of `threads` threads. -/
def run (threads : ℕ) : Answer × State :=
  if s.runningThreads ≠ 0 then (.threw, s)
  else if s.threadPool.any fun t => t.joinable then (.terminated, { s with call := .crashed })
  else
    (.returned, { s with
      core := { s.core with
        ioStopped := if s.threadPool.length ≠ 0 then false else s.core.ioStopped
        guarded := true
        workers := List.replicate threads .idle }
      workGuard := true
      threadPool := List.replicate threads ⟨.created, true⟩
      runs := s.runs + 1 })

/-- `stop`, from `work_guard->reset()` to its wait, and on to its end. -/
def stopStep : Answer × State :=
  if s.core.stop = .joining then
    if s.allFinished then
      (.returned, { s.joined .none with
        core := { s.core with cvLock := none, stop := .returned } })
    else (.none, s)
  else (.none, { s with core := s.core.stopStep })

/-- The next step of the call in progress. -/
def advance : Answer × State :=
  match s.call with
  | .stopping => s.stopStep
  | .forcing last =>
    (.none, { s with core := { s.core with ioStopped := true }, call := .joining last })
  | .joining last =>
    if s.allFinished then
      if last then (.returned, { s.joined .destroyed with workGuard := false })
      else (.returned, s.joined .none)
    else (.none, s)
  | .none | .destroyed | .crashed => (.none, s)

/-- `running_threads.fetch_add(1)`, in thread `i`. -/
def begin (i : ℕ) : State :=
  match s.threadPool[i]? with
  | some ⟨.created, joinable⟩ =>
    { s with
      threadPool := s.threadPool.set i ⟨.running, joinable⟩
      runningThreads := s.runningThreads + 1 }
  | _ => s

/-- A step of thread `i` in `io.run()`. -/
def work (i k : ℕ) (r : Removal) : State :=
  match s.threadPool[i]? with
  | some ⟨.running, _⟩ => { s with core := s.core.work i k r }
  | _ => s

/-- `running_threads.fetch_sub(1)`, in thread `i`, once `io.run()` has returned. -/
def finish (i : ℕ) : State :=
  match s.threadPool[i]?, s.core.workers[i]? with
  | some ⟨.running, joinable⟩, some .exited =>
    { s with
      threadPool := s.threadPool.set i ⟨.finished, joinable⟩
      runningThreads := s.runningThreads - 1 }
  | _, _ => s

end State

inductive Action
  | run
  | submit (file : List UInt8)
  | stop
  | forceStop
  | status
  | destroy
  | advance  -- of the call in progress
  | begin (i : ℕ)
  | work (i k : ℕ) (r : Removal)
  | finish (i : ℕ)
  | runOut
  | wake

/-- Calls are made one after the other. -/
def State.calls (s : State) (f : Answer × State) : Answer × State :=
  if s.call = .none then f else (.none, s)

variable (threads : ℕ)

def step (s : State) : Action → Answer × State
  | .run => s.calls (s.run threads)
  | .submit file => s.calls (.returned, s.submit file)
  | .stop => s.calls ({ s with core := { s.core with stop := .locking } }.resetGuard .stopping)
  | .forceStop => s.calls (s.resetGuard (.forcing false))
  | .status => s.calls (.counts s.runningThreads s.core.workingJobs, s)
  | .destroy => s.calls (s.resetGuard (.forcing true))
  | .advance => s.advance
  | .begin i => (.none, s.begin i)
  | .work i k r => (.none, s.work i k r)
  | .finish i => (.none, s.finish i)
  | .runOut => (.none, if s.workGuard then { s with core := s.core.runOut } else s)
  | .wake => (.none, { s with core := s.core.wake })

end Lifecycle

end AsyncDeleter

end XCache
