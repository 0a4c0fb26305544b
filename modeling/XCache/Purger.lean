import XCache.Lib.Machine
import XCache.Lib.Pool

/-!
# The purger

`Purger` of `utils/purger.{h,cpp}`: `add` queues a path, and the workers take paths from the queue
and send a request for each. Each section under `queue_lock` is one step, and so is what a worker
does between two of them, up to the answer to its request and from there on. Which step is next is
free: a list of actions stands for any interleaving, where an action that its worker cannot take
does nothing. `worker_cv.wait` may return at any time, with or without a notification.

The tasks carry the number of the call of `add` they come from, and the state records what has been
accepted, taken, purged and reported: the code reads none of it. A worker sends its request for a
task some time after it has taken it, outside of `queue_lock`; each is taken for one request.
-/

namespace XCache

namespace Purger

/-- A `std::string`. -/
abbrev Str := List UInt8

/-- The constructor's arguments. -/
structure Config where
  queueMax : ℕ
  threadMax : ℤ
  tryMax : ℤ

/-- An element of `purge_queue`. -/
structure Task where
  ticket : ℕ
  path : Str
  tries : ℤ
  deriving DecidableEq

/-- The call of `add` that a task comes from, and the path it queued. -/
def Task.occurrence (t : Task) : ℕ × Str := (t.ticket, t.path)

/-- `task.second++`. -/
def Task.tried (t : Task) : Task := { t with tries := t.tries + 1 }

/-- Where a worker is. -/
inductive Phase
  | ready  -- at the top of its loop
  | waiting  -- in `worker_cv.wait`
  | requesting (t : Task)  -- past `queue_lock.unlock()`, before or in `curl_easy_perform`
  | failed (t : Task)  -- past an answer that is no success
  | exited
  deriving DecidableEq

/-- Where the call of `stop` is. -/
inductive StopPhase
  | notCalled
  | waiting  -- in the loop that waits for `running_worker`
  | returned
  deriving DecidableEq

structure State where
  purgeQueue : List Task
  stopSignal : Bool
  runningWorker : ℤ
  workers : List Phase
  stop : StopPhase
  /-- The paths `add` has returned true for. -/
  accepted : List (ℕ × Str)
  /-- The tickets of the tasks taken from the queue, each for a request. -/
  attempts : List ℕ
  purged : List Task
  /-- The tasks `fail_callback` has been called for. -/
  reported : List Task
  deriving DecidableEq

/-- The constructor. -/
def construct (c : Config) : State where
  purgeQueue := []
  stopSignal := false
  runningWorker := c.threadMax.toNat
  workers := List.replicate c.threadMax.toNat .ready
  stop := .notCalled
  accepted := []
  attempts := []
  purged := []
  reported := []

namespace State

/-- Worker `i` goes on to the given phase. -/
def moved (s : State) (i : ℕ) (p : Phase) : State := { s with workers := s.workers.set i p }

end State

/-- `path.front() == '/'`, where the front of an empty string is its terminator. -/
def slashed (path : Str) : Str := if path.head? = some 47 then path else 47 :: path

/-- `VALID_RESPONSE`, that is `Key:`. -/
def validResponse : Str := [75, 101, 121, 58]

variable (c : Config)

def add (s : State) (path : Str) : Bool × State :=
  if s.purgeQueue.length < c.queueMax then
    (true, { s with
      purgeQueue := s.purgeQueue ++ [⟨s.accepted.length, slashed path, 0⟩]
      accepted := s.accepted ++ [(s.accepted.length, slashed path)] })
  else (false, s)

/-- The first section of `worker`, from the top of the loop or from within `worker_cv.wait`. -/
def take (s : State) (i : ℕ) : State :=
  if s.stopSignal then { s.moved i .exited with runningWorker := s.runningWorker - 1 }
  else
    match s.purgeQueue with
    | [] => s.moved i .waiting
    | task :: rest =>
      { s.moved i (.requesting task.tried) with
        purgeQueue := rest
        attempts := s.attempts ++ [task.ticket] }

/-- The answer to the request. -/
def respond (s : State) (i : ℕ) (task : Task) (httpCode : ℤ) (buffer : Str) : State :=
  if httpCode ≠ 200 ∨ buffer.take 4 ≠ validResponse then s.moved i (.failed task)
  else { s.moved i .ready with purged := s.purged ++ [task] }

/-- `fail_callback(task.first, task.second)`. -/
def failCallback (s : State) (i : ℕ) (task : Task) : State :=
  { s.moved i .ready with reported := s.reported ++ [task] }

/-- What `worker` does about a task that has failed, up to the end of the loop's body. -/
def settle (s : State) (i : ℕ) (task : Task) : State :=
  if task.tries < c.tryMax then
    if s.purgeQueue.length < c.queueMax then
      { s.moved i .ready with purgeQueue := s.purgeQueue ++ [task] }
    else failCallback s i task
  else failCallback s i task

/-- `stop` up to its loop. -/
def stop (s : State) : State :=
  if s.stopSignal then s else { s with stopSignal := true, stop := .waiting }

/-- The loop of `stop` and its end. -/
def stopReturn (s : State) : State :=
  if s.stop = .waiting ∧ s.runningWorker = 0 then { s with stop := .returned } else s

/-- What may happen next, and where. -/
inductive Action
  | add (path : Str)
  | take (i : ℕ)
  | respond (i : ℕ) (httpCode : ℤ) (buffer : Str)
  | settle (i : ℕ)
  | stop
  | stopReturn

/-- One step, with what `add` returns where the step is a call of it. -/
def step (s : State) : Action → Option Bool × State
  | .add path => (some (add c s path).1, (add c s path).2)
  | .take i => (none,
    match s.workers[i]? with
    | some .ready | some .waiting => take s i
    | _ => s)
  | .respond i httpCode buffer => (none,
    match s.workers[i]? with
    | some (.requesting task) => respond s i task httpCode buffer
    | _ => s)
  | .settle i => (none,
    match s.workers[i]? with
    | some (.failed task) => settle c s i task
    | _ => s)
  | .stop => (none, stop s)
  | .stopReturn => (none, stopReturn s)

end Purger

end XCache
