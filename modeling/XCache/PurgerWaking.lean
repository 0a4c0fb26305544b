import XCache.Purger

/-!
# The purger's notifications

In `Purger`'s model `worker_cv.wait` may return at any time. Here a worker that has found the queue
empty is asleep until it is woken: by a `notify_one`, which wakes one of those asleep, if there is
one, by the `notify_all` of `stop`, or without a notification. `add` and a retry notify after they
have released `queue_lock`, and `stop` does before its loop, so there may be other steps between.
-/

namespace XCache

namespace Purger

namespace Waking

structure State where
  core : Purger.State
  /-- For each worker, whether it is in `worker_cv.wait` and has not been woken. -/
  asleep : List Bool
  /-- The calls of `notify_one` to come. -/
  due : ℕ
  /-- `stop` has its `notify_all` before it. -/
  allDue : Bool
  deriving DecidableEq

/-- The constructor. -/
def construct (c : Config) : State where
  core := Purger.construct c
  asleep := List.replicate c.threadMax.toNat false
  due := 0
  allDue := false

inductive Action
  | add (path : Str)
  | take (i : ℕ)
  | respond (i : ℕ) (httpCode : ℤ) (buffer : Str)
  | settle (i : ℕ)
  | stop
  | stopReturn
  | notifyOne (i : ℕ)  -- `i` is the worker it wakes, if one is asleep
  | notifyAll
  | wake (i : ℕ)  -- without a notification
  deriving DecidableEq

variable (c : Config)

/-- `add`, up to its notification. -/
def add (s : State) (path : Str) : Bool × State :=
  ((Purger.add c s.core path).1,
    { s with
      core := (Purger.add c s.core path).2
      due := s.due + (Purger.add c s.core path).1.toNat })

/-- The first section of `worker`: it may end in `worker_cv.wait`. -/
def take (s : State) (i : ℕ) : State :=
  if s.asleep[i]? = some true then s
  else
    { s with
      core := (Purger.step c s.core (.take i)).2
      asleep := s.asleep.set i
        (decide ((Purger.step c s.core (.take i)).2.workers[i]? = some .waiting)) }

/-- What a worker does about a task that has failed: a retry lengthens the queue, and notifies. -/
def settle (s : State) (i : ℕ) : State :=
  { s with
    core := (Purger.step c s.core (.settle i)).2
    due := s.due + (decide (s.core.purgeQueue.length
      < (Purger.step c s.core (.settle i)).2.purgeQueue.length)).toNat }

/-- `stop`, up to its notification. -/
def stop (s : State) : State :=
  { s with core := Purger.stop s.core, allDue := s.allDue || !s.core.stopSignal }

/-- The loop of `stop` and its end. -/
def stopReturn (s : State) : State :=
  if s.allDue then s else { s with core := Purger.stopReturn s.core }

def notifyOne (s : State) (i : ℕ) : State :=
  if s.due = 0 then s
  else if s.asleep[i]? = some true then
    { s with asleep := s.asleep.set i false, due := s.due - 1 }
  else if true ∈ s.asleep then s
  else { s with due := s.due - 1 }

def notifyAll (s : State) : State :=
  if s.allDue then { s with asleep := s.asleep.map fun _ => false, allDue := false } else s

def step (s : State) : Action → Option Bool × State
  | .add path => (some (add c s path).1, (add c s path).2)
  | .take i => (none, take c s i)
  | .respond i httpCode buffer => (none,
    { s with core := (Purger.step c s.core (.respond i httpCode buffer)).2 })
  | .settle i => (none, settle c s i)
  | .stop => (none, stop s)
  | .stopReturn => (none, stopReturn s)
  | .notifyOne i => (none, notifyOne s i)
  | .notifyAll => (none, notifyAll s)
  | .wake i => (none, { s with asleep := s.asleep.set i false })

end Waking

end Purger

end XCache
