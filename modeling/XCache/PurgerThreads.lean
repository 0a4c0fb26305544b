import XCache.Purger

/-!
# The purger, lock by lock

`Purger` takes a worker's section under `queue_lock` as one step, and what the worker does with a
failed task, too. Here the worker takes the lock, and releases it, where the source does, and
`fail_callback` runs until it returns; meanwhile it may call `add` and `size` of its own purger.
Sections of other threads are short and stay one step: they happen when the lock is free. A worker
keeps its place in `Purger`'s model (`core`), and its `Stage` is where it is on the way to the next.
-/

namespace XCache

namespace Purger

namespace Threads

inductive Stage
  | outside  -- without the lock, and not about to take it again
  | checking  -- under the lock, at `purge_queue.empty() && !stop_signal` or at the wait's condition
  | relocking  -- before the `uni_lock.lock()` of a retry
  | retrying  -- under the lock, at `purge_queue.size() < queue_max`
  | calling  -- in `fail_callback`
  deriving DecidableEq

structure State where
  core : Purger.State
  /-- The worker that owns `queue_lock`. -/
  queueLock : Option ℕ
  stages : List Stage
  deriving DecidableEq

/-- The constructor. -/
def construct (c : Config) : State where
  core := Purger.construct c
  queueLock := none
  stages := List.replicate c.threadMax.toNat .outside

namespace State

/-- Worker `i` has taken the lock. -/
def locked (s : State) (i : ℕ) (st : Stage) : State :=
  { s with queueLock := some i, stages := s.stages.set i st }

/-- Worker `i` has released the lock. -/
def unlocked (s : State) (i : ℕ) (core : Purger.State) : State :=
  { core := core, queueLock := none, stages := s.stages.set i .outside }

/-- Worker `i` goes on to the given stage. -/
def moved (s : State) (i : ℕ) (st : Stage) (core : Purger.State) : State :=
  { s with core := core, stages := s.stages.set i st }

end State

variable (c : Config)

/-- What becomes of a task that has failed, up to the lock or the call. -/
def settle (s : State) (i : ℕ) (task : Task) : State :=
  if task.tries < c.tryMax then s.moved i .relocking s.core
  else s.moved i .calling (failCallback s.core i task)

/-- The section of a retry: it ends with `uni_lock.unlock()`, or `fail_callback` is called in it. -/
def retry (s : State) (i : ℕ) (task : Task) : State :=
  if s.core.purgeQueue.length < c.queueMax then
    s.unlocked i { s.core.moved i .ready with purgeQueue := s.core.purgeQueue ++ [task] }
  else s.moved i .calling (failCallback s.core i task)

/-- `fail_callback` returns, and the loop's body ends with the destruction of `uni_lock`. -/
def finish (s : State) (i : ℕ) : State :=
  { s.moved i .outside s.core with
    queueLock := if s.queueLock = some i then none else s.queueLock }

inductive Action
  | add (path : Str)  -- of another thread, as the next three
  | size
  | stop
  | stopReturn
  | lock (i : ℕ)
  | take (i : ℕ)
  | respond (i : ℕ) (httpCode : ℤ) (buffer : Str)
  | settle (i : ℕ)
  | relock (i : ℕ)
  | retry (i : ℕ)
  | callAdd (i : ℕ) (path : Str)  -- in the `fail_callback` that worker `i` is in
  | callSize (i : ℕ)
  | finish (i : ℕ)
  deriving DecidableEq

inductive Answer
  | none
  | blocked  -- waits for the lock
  | added (b : Bool)
  | size (n : ℕ)
  deriving DecidableEq

/-- `add`, by whoever calls it. -/
def add (s : State) (path : Str) : Answer × State :=
  if s.queueLock = none then
    (.added (Purger.add c s.core path).1, { s with core := (Purger.add c s.core path).2 })
  else (.blocked, s)

/-- `size`, by whoever calls it. -/
def size (s : State) : Answer × State :=
  if s.queueLock = none then (.size s.core.purgeQueue.length, s) else (.blocked, s)

def step (s : State) : Action → Answer × State
  | .add path => add c s path
  | .size => size s
  | .stop =>
    if s.queueLock = none then (.none, { s with core := Purger.stop s.core }) else (.blocked, s)
  | .stopReturn => (.none, { s with core := Purger.stopReturn s.core })
  | .lock i => (.none,
    match s.stages[i]?, s.core.workers[i]? with
    | some .outside, some .ready | some .outside, some .waiting =>
      if s.queueLock = none then s.locked i .checking else s
    | _, _ => s)
  | .take i => (.none,
    match s.stages[i]? with
    | some .checking => s.unlocked i (Purger.take s.core i)
    | _ => s)
  | .respond i httpCode buffer => (.none,
    match s.core.workers[i]? with
    | some (.requesting task) => { s with core := Purger.respond s.core i task httpCode buffer }
    | _ => s)
  | .settle i => (.none,
    match s.stages[i]?, s.core.workers[i]? with
    | some .outside, some (.failed task) => settle c s i task
    | _, _ => s)
  | .relock i => (.none,
    match s.stages[i]? with
    | some .relocking => if s.queueLock = none then s.locked i .retrying else s
    | _ => s)
  | .retry i => (.none,
    match s.stages[i]?, s.core.workers[i]? with
    | some .retrying, some (.failed task) => retry c s i task
    | _, _ => s)
  | .callAdd i path =>
    match s.stages[i]? with
    | some .calling => add c s path
    | _ => (.none, s)
  | .callSize i =>
    match s.stages[i]? with
    | some .calling => size s
    | _ => (.none, s)
  | .finish i => (.none,
    match s.stages[i]? with
    | some .calling => finish s i
    | _ => s)

end Threads

end Purger

end XCache
