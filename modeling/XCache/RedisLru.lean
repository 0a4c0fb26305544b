import XCache.Lib.Program
import XCache.Lib.Machine
import XCache.RedisCodec

/-!
# The LRU table in Redis

`RedisLRU` of `db_adapter/db_redis_lru.h`, on a server that answers every command. `command` hands
a `std::string` on to `redisCommand` as the object it is, through a `...`, where `%s` takes it for a
`char*`: what that reads is up to the implementation, and in practice it is the bytes of the object
(first the address of its characters) up to a zero byte, which differ from call to call. Each call
carries what its `%s` makes of a string. Of the server: a key holds a string, a hash or a value of
another type, `HSET` of a field answers how many fields are new, and of a key that holds no hash it
answers an error and changes nothing.
-/

namespace XCache

namespace RedisLru

open RedisAdapter (Str)

inductive Value
  | string (str : Str)
  | hash (fields : Str → Option Str)
  | other

abbrev Store := Str → Option Value

/-- What a `%s` makes of a `std::string` that is passed through the `...`. -/
abbrev Vararg := Str → Str

/-- `std::to_string`. -/
def toStr (n : ℤ) : Str :=
  (if n < 0 then [45] else [])
    ++ if n = 0 then [48] else (Nat.digits 10 n.natAbs).reverse.map fun d => UInt8.ofNat (48 + d)

/-- `lru_meta`. -/
def lruMeta : Str := [108, 114, 117, 95, 109, 101, 116, 97]

/-- `cache_size`. -/
def cacheSizeField : Str := [99, 97, 99, 104, 101, 95, 115, 105, 122, 101]

/-- `max_size`. -/
def maxSizeField : Str := [109, 97, 120, 95, 115, 105, 122, 101]

/-- `sequence`. -/
def sequenceField : Str := [115, 101, 113, 117, 101, 110, 99, 101]

structure CacheLRU where
  key : Str
  size : UInt64
  downloadTime : UInt64
  hash : Str

structure MetaLRU where
  cacheSize : UInt64
  maxSize : UInt64
  sequence : Int64

/-! ## The server -/

inductive Command
  | exists (key : Str)
  | hset (key field value : Str)

inductive Reply
  | integer (val : ℤ)
  | error  -- `WRONGTYPE`
  | nil
  deriving DecidableEq

/-- The reply to a command, and the store after it. -/
def serve (s : Store) : Command → Reply × Store
  | .exists key => (.integer (if (s key).isSome then 1 else 0), s)
  | .hset key field value =>
    match s key with
    | none =>
      (.integer 1, Function.update s key
        (some (.hash (Function.update (fun _ => none) field (some value)))))
    | some (.hash fields) =>
      (.integer (if (fields field).isSome then 0 else 1), Function.update s key
        (some (.hash (Function.update fields field (some value)))))
    | some (.string _) | some .other => (.error, s)

/-! ## The adapter -/

/-- The exceptions, all of them `RedisError`. -/
inductive Failure
  | unexpectedType (reply : Reply)
  | commandError
  | metaExists
  | unknown
  deriving DecidableEq

abbrev Call := EStateM Failure Store

/-- The type a reply is asked for as. -/
inductive Wanted
  | int
  | integer  -- `RedisReplyInteger`
  deriving DecidableEq

/-- `std::variant<T, RedisReplyNil, RedisReplyError>`. -/
inductive Res
  | value (val : ℤ)
  | nil
  | error
  deriving DecidableEq

/-- `reply_proc`. It has no branch for `int`. -/
def replyProc : Wanted → Reply → Call Res
  | _, .nil => return .nil
  | _, .error => return .error
  | .integer, .integer val => return .value val
  | .int, .integer val => throw (.unexpectedType (.integer val))

def commandSingle (wanted : Wanted) (cmd : Command) : Call Res := do
  let s ← get
  set (serve s cmd).2
  replyProc wanted (serve s cmd).1

/-! ## The table -/

def checkError : Res → Call Unit
  | .error => throw .commandError
  | .value _ | .nil => return

def checkValue : Res → ℤ → Bool
  | .value val, expection => val = expection
  | .nil, _ | .error, _ => false

/-- The constructor: `_new`. -/
def construct : Call Bool := do
  let res ← commandSingle .int (.exists lruMeta)
  match res with
  | .value val => return val ≠ 1
  | .nil | .error => throw .unknown

def insertMeta (vararg : Vararg) (m : MetaLRU) : Call Unit := do
  let res ← commandSingle .integer
    (.hset lruMeta cacheSizeField (vararg (toStr m.cacheSize.toNat)))
  checkError res
  throwIf (checkValue res 0 = true) .metaExists

/-- `insert_lru`. The `HSET` after its first `return` is never sent. -/
def insertLru (vararg : Vararg) (entry : CacheLRU) : Call Bool := do
  let res ← commandSingle .integer (.exists (vararg entry.key))
  checkError res
  return checkValue res 0

inductive Action
  | insertMeta (vararg : Vararg) (m : MetaLRU)
  | insertLru (vararg : Vararg) (entry : CacheLRU)

/-- What a call returns. -/
inductive Ret
  | unit
  | bool (b : Bool)
  deriving DecidableEq

def call : Action → Call Ret
  | .insertMeta vararg m => (fun _ => .unit) <$> insertMeta vararg m
  | .insertLru vararg entry => .bool <$> insertLru vararg entry

def step (s : Store) (a : Action) : Except Failure Ret × Store := outcome (call a) s

end RedisLru

end XCache
