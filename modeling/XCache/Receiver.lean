import XCache.Lib.Machine

/-!
# The datagram receiver

`Receiver` of `io/receiver.{h,cpp}`, once `init` has returned: calls of `receive_start`,
`receive_stop` and `io_run` from any threads, the io thread, which runs the handlers one after the
other, and what comes in on the socket. A step is what a thread does between two things another
thread may see. A list of actions stands for any interleaving; an action that its thread cannot take
does nothing.

Of asio: an operation completes once, with a datagram or an error, and its handler is then queued;
`cancel` completes those outstanding with `operation_aborted` and leaves the queued handlers as they
are; a queued handler is run once, in any order. A datagram that meets no operation stays in the
socket. The destructor and what goes to `std::cerr` are left out.
-/

namespace XCache

namespace Receiver

/-- How an `async_receive_from` has completed, for its handler. -/
inductive Completion
  | received (bytes : ℕ)
  /-- `asio::error::operation_aborted`. -/
  | aborted
  | failed
  deriving DecidableEq

inductive Error
  | alreadyStart
  | alreadyStop
  | cancel (message : String)
  | ioStart
  deriving DecidableEq

def Error.what : Error → String
  | .alreadyStart => "manager: fail to start receiving (already start)"
  | .alreadyStop => "manager: fail to stop receiving (already stop)"
  | .cancel message => "manager: fail to stop receiving: " ++ message
  | .ioStart => "manager: fail to start io (already start)"

/-- How a call ends. -/
inductive Ret
  | void
  | throws (e : Error)
  deriving DecidableEq

/-- Where a call is, once its check of `is_running` is passed. -/
inductive Call
  | starting  -- in `receive_start`, before `receive()`
  | started  -- in `receive_start`, before `is_running.store(true)`
  | stopping  -- in `receive_stop`, before `socket->cancel(err)`
  | cancelled  -- in `receive_stop`, before `is_running.store(false)`
  deriving DecidableEq

/-- The call is one of `receive_start`. -/
def Call.isStart : Call → Bool
  | .starting | .started => true
  | .stopping | .cancelled => false

/-- What a step does that others see. -/
structure Out where
  ret : Option Ret
  /-- An `async_receive_from` has been started. -/
  armed : Bool
  /-- What `callback` is called with. -/
  delivered : Option (List UInt8 × List UInt8)
  deriving DecidableEq

structure State where
  buffer : List UInt8
  endpoint : List UInt8
  isRunning : Bool
  threadRunning : Bool
  calls : List Call
  /-- The number of operations that are not complete. -/
  outstanding : ℕ
  /-- The handlers not yet run. -/
  queued : List Completion
  /-- The io thread is in a handler, before its `receive()`. -/
  handling : Bool
  deriving DecidableEq

def bufferSize : ℕ := 4096

/-- The object, once `init` has returned. -/
def start : State where
  buffer := List.replicate bufferSize 0
  endpoint := []
  isRunning := false
  threadRunning := false
  calls := []
  outstanding := 0
  queued := []
  handling := false

/-- A step that nobody sees anything of. -/
def quiet : Out := ⟨none, false, none⟩

/-- A call ends. -/
def returns (r : Ret) : Out := ⟨some r, false, none⟩

namespace State

variable (s : State)

/-- `receive`. -/
def receive : Out × State :=
  ({ quiet with armed := true }, { s with outstanding := s.outstanding + 1 })

/-- `socket->cancel(err)`, without an error. -/
def cancel : State :=
  { s with
    outstanding := 0
    queued := s.queued ++ List.replicate s.outstanding .aborted }

/-! ## The calls -/

/-- `receive_start`, up to its check. -/
def receiveStart : Out × State :=
  if s.isRunning then (returns (.throws .alreadyStart), s)
  else (quiet, { s with calls := s.calls ++ [.starting] })

/-- `receive_stop`, up to its check. -/
def receiveStop : Out × State :=
  if s.isRunning then (quiet, { s with calls := s.calls ++ [.stopping] })
  else (returns (.throws .alreadyStop), s)

/-- `io_run`. -/
def ioRun : Out × State :=
  if s.threadRunning then (returns (.throws .ioStart), s)
  else (returns .void, { s with threadRunning := true })

/-- The next step of call `k`, where `cancelErr` is the message of the error `cancel` reports. -/
def proceed (k : ℕ) (cancelErr : Option String) : Out × State :=
  match s.calls[k]? with
  | some .starting => (s.receive.1, { s.receive.2 with calls := s.calls.set k .started })
  | some .started => (returns .void, { s with isRunning := true, calls := s.calls.eraseIdx k })
  | some .stopping =>
    match cancelErr with
    | some message =>
      (returns (.throws (.cancel message)), { s with calls := s.calls.eraseIdx k })
    | none => (quiet, { s.cancel with calls := s.calls.set k .cancelled })
  | some .cancelled => (returns .void, { s with isRunning := false, calls := s.calls.eraseIdx k })
  | none => (quiet, s)

/-! ## The socket -/

/-- An operation completes. -/
def complete (c : Completion) : State :=
  { s with outstanding := s.outstanding - 1, queued := s.queued ++ [c] }

/-- An operation receives a datagram, of which it takes what the buffer holds. -/
def arrive (data endpoint : List UInt8) : State :=
  let data := data.take bufferSize
  { s.complete (.received data.length) with
    buffer := data ++ s.buffer.drop data.length
    endpoint := endpoint }

/-! ## The io thread -/

/-- It takes one of the handlers, and runs it up to `receive()`. -/
def take (k : ℕ) : Out × State :=
  match s.queued[k]? with
  | some .aborted => (quiet, { s with queued := s.queued.eraseIdx k })
  | some (.received bytes) =>
    ({ quiet with delivered := some (s.buffer.take bytes, s.endpoint) },
      { s with queued := s.queued.eraseIdx k, handling := true })
  | some .failed => (quiet, { s with queued := s.queued.eraseIdx k, handling := true })
  | none => (quiet, s)

/-- The end of a handler. -/
def rearm : Out × State := { s with handling := false }.receive

end State

/-- What may happen next. -/
inductive Action
  | receiveStart
  | receiveStop
  | ioRun
  | proceed (k : ℕ) (cancelErr : Option String)
  | arrive (data endpoint : List UInt8)
  /-- An operation completes with an error other than `operation_aborted`. -/
  | fail
  | take (k : ℕ)
  | rearm
  deriving DecidableEq

def step (s : State) : Action → Out × State
  | .receiveStart => s.receiveStart
  | .receiveStop => s.receiveStop
  | .ioRun => s.ioRun
  | .proceed k cancelErr => s.proceed k cancelErr
  | .arrive data endpoint => (quiet, if s.outstanding = 0 then s else s.arrive data endpoint)
  | .fail => (quiet, if s.outstanding = 0 then s else s.complete .failed)
  | .take k => if s.threadRunning && !s.handling then s.take k else (quiet, s)
  | .rearm => if s.handling then s.rearm else (quiet, s)

end Receiver

end XCache
