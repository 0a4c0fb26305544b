import XCache.RedisBase

/-!
# What the adapter is asked for

Calls of `RedisAdapter` of `redis/redis_adapter.h`, one after the other: `init`, `reset`, and the
commands, for which `command_single` and `command_multi` call `command_impl`. What they make of a
reply is left out here.
-/

namespace XCache

namespace RedisBase

namespace Adapter

variable {ρ : Type}

/-- A call, with what hiredis answers to what it does. -/
inductive Action (ρ : Type)
  | init (c : Connecting)
  | reset (c : Connecting)
  | command (first second : Commanding ρ) (c : Connecting)

variable (maxRetries : ℕ) (upperRetry : Bool)

/-- The reply, if the call is one that has one. -/
def call : Action ρ → Call (Option ρ)
  | .init c => do
    connect maxRetries c
    return none
  | .reset c => do
    reset maxRetries c
    return none
  | .command first second c => do
    let reply ← commandImpl maxRetries upperRetry first second c
    return some reply

def step (s : State) (a : Action ρ) : Except Failure (Option ρ) × State :=
  outcome (call maxRetries upperRetry a) s

end Adapter

end RedisBase

end XCache
