import XCache.Lib.Machine
import XCache.Lib.Pool

/-!
# The deleter

`AsyncDeleter` of `io/async_deleter.{h,cpp}`, from the moment `run` has started its threads: calls
of `submit`, the threads in `io.run()`, which run the posted handlers, and one call of `stop`. A
step is what a thread does between two things another thread may see: an atomic operation, taking or
leaving `cv_lock`, a notification. A list of actions stands for any interleaving; an action that its
thread cannot take does nothing, a blocked `lock` included. `cv.wait` may return at any time, with
or without a notification.

Of `io_context`: a handler posted is run once, by any thread and in any order, while the context is
not stopped; once the work guard is reset and no handler is left or running, it stops by itself.
`running_threads` is for a warning only and is left out, as is the output to `std::cerr`. The
counter is a natural number: it wraps after `2 ^ 64` jobs that are not done.

The state records which jobs have been submitted, have ended their `remove_all` and have been
counted off, and what `fail_callback` was called for: the code reads none of it.
-/

namespace XCache

namespace AsyncDeleter

/-- A call of `submit`, with its number. -/
structure Job where
  ticket : ℕ
  file : List UInt8
  deriving DecidableEq

/-- How `fs::remove_all(file, ec)` ends: it returns, or throws. -/
inductive Removal
  | returned (count : ℕ) (ec : ℤ)
  | thrown

/-- Where a thread of the pool is. -/
inductive Phase
  | idle  -- in `io.run()`, with no handler
  | removing (j : Job)  -- in `fs::remove_all`
  | removed (j : Job)  -- before `working_jobs.fetch_sub(1)`
  | locking  -- before it locks `cv_lock`
  | notifying  -- before `cv.notify_all()`
  | unlocking  -- before it unlocks `cv_lock`
  | exited
  deriving DecidableEq

/-- Where the call of `stop` is. -/
inductive StopPhase
  | notCalled
  | locking  -- before it locks `cv_lock`
  | checking  -- before `if(working_jobs.load())`
  | testing  -- in `cv.wait`, before its predicate
  | blocking  -- in `cv.wait`, the predicate false: before it unlocks `cv_lock` and sleeps
  | asleep
  | woken  -- in `cv.wait`, before it locks `cv_lock` again
  | passed  -- past the wait
  | joining  -- in `wait_thread`
  | returned
  deriving DecidableEq

/-- Who has `cv_lock`. -/
inductive Holder
  | stop
  | worker (i : ℕ)
  deriving DecidableEq

structure State where
  workingJobs : ℕ
  cvLock : Option Holder
  workers : List Phase
  /-- The handlers posted and not yet run. -/
  ioQueue : List Job
  ioStopped : Bool
  /-- `work_guard` is not reset. -/
  guarded : Bool
  stop : StopPhase
  /-- The calls of `submit` before their `asio::post`. -/
  submitting : List Job
  submitted : List Job
  /-- The jobs whose `remove_all` has ended. -/
  removed : List Job
  /-- The jobs that have been counted off `working_jobs`. -/
  decremented : List Job
  /-- The calls of `fail_callback`. -/
  failed : List (Job × ℤ)
  deriving DecidableEq

/-- The object, once `run` has started its threads. -/
def start (threads : ℕ) : State where
  workingJobs := 0
  cvLock := none
  workers := List.replicate threads .idle
  ioQueue := []
  ioStopped := false
  guarded := true
  stop := .notCalled
  submitting := []
  submitted := []
  removed := []
  decremented := []
  failed := []

namespace State

variable (s : State)

/-- Thread `i` goes on to the given phase. -/
def moved (i : ℕ) (p : Phase) : State := { s with workers := s.workers.set i p }

/-! ## `submit` -/

/-- `working_jobs.fetch_add(1)`. -/
def submit (file : List UInt8) : State :=
  { s with
    workingJobs := s.workingJobs + 1
    submitting := s.submitting ++ [⟨s.submitted.length, file⟩]
    submitted := s.submitted ++ [⟨s.submitted.length, file⟩] }

/-- `asio::post`, in one of the calls. -/
def post (k : ℕ) : State :=
  match s.submitting[k]? with
  | some j => { s with submitting := s.submitting.eraseIdx k, ioQueue := s.ioQueue ++ [j] }
  | none => s

/-! ## The handler -/

/-- A thread takes one of the handlers. -/
def take (i k : ℕ) : State :=
  match s.ioQueue[k]? with
  | some j => { s.moved i (.removing j) with ioQueue := s.ioQueue.eraseIdx k }
  | none => s

def removeAll (i : ℕ) (j : Job) (r : Removal) : State :=
  { s.moved i (.removed j) with
    removed := s.removed ++ [j]
    failed := match r with
      | .returned 0 ec => s.failed ++ [(j, ec)]
      | .returned _ _ | .thrown => s.failed }

/-- `if(working_jobs.fetch_sub(1) <= 2)`. -/
def decrement (i : ℕ) (j : Job) : State :=
  { s.moved i (if s.workingJobs ≤ 2 then .locking else .idle) with
    workingJobs := s.workingJobs - 1
    decremented := s.decremented ++ [j] }

def lock (i : ℕ) : State :=
  if s.cvLock = none then { s.moved i .notifying with cvLock := some (.worker i) } else s

def notifyAll (i : ℕ) : State :=
  { s.moved i .unlocking with stop := if s.stop = .asleep then .woken else s.stop }

def unlock (i : ℕ) : State := { s.moved i .idle with cvLock := none }

/-- The next step of thread `i`: `k` is the handler it is given, `r` how `remove_all` ends. -/
def work (i k : ℕ) (r : Removal) : State :=
  match s.workers[i]? with
  | some .idle => if s.ioStopped then s.moved i .exited else s.take i k
  | some (.removing j) => s.removeAll i j r
  | some (.removed j) => s.decrement i j
  | some .locking => s.lock i
  | some .notifying => s.notifyAll i
  | some .unlocking => s.unlock i
  | some .exited | none => s

/-- `io_context` runs out of work. -/
def runOut : State :=
  if !s.guarded && s.ioQueue.isEmpty && s.workers.all (fun p => p = .idle || p = .exited) then
    { s with ioStopped := true }
  else s

/-! ## `stop` -/

/-- The next step of `stop`. -/
def stopStep : State :=
  match s.stop with
  | .notCalled => { s with guarded := false, stop := .locking }
  | .locking => if s.cvLock = none then { s with cvLock := some .stop, stop := .checking } else s
  | .checking =>
    if s.workingJobs ≠ 0 then { s with stop := .testing } else { s with stop := .passed }
  | .testing =>
    if s.workingJobs = 0 then { s with stop := .passed } else { s with stop := .blocking }
  | .blocking => { s with cvLock := none, stop := .asleep }
  | .asleep => s
  | .woken => if s.cvLock = none then { s with cvLock := some .stop, stop := .testing } else s
  | .passed => { s with ioStopped := true, stop := .joining }
  | .joining =>
    if s.workers.all (fun p => p = .exited) then { s with cvLock := none, stop := .returned }
    else s
  | .returned => s

/-- `cv.wait` wakes up by itself. -/
def wake : State := if s.stop = .asleep then { s with stop := .woken } else s

end State

/-- What may happen next, and where. -/
inductive Action
  | submit (file : List UInt8)
  | post (k : ℕ)
  | work (i k : ℕ) (r : Removal)
  | runOut
  | stop
  | wake

def step (s : State) : Action → Unit × State
  | .submit file => ((), s.submit file)
  | .post k => ((), s.post k)
  | .work i k r => ((), s.work i k r)
  | .runOut => ((), s.runOut)
  | .stop => ((), s.stopStep)
  | .wake => ((), s.wake)

end AsyncDeleter

end XCache
