import Mathlib

/-!
# The Redis codec

`RedisAdapter::serialize` and `deserialize` of `redis_adapter.h`: variadic templates over the types
`int`, `int64_t`, `uint64_t` (`size_t`) and `std::string`. A list of field types stands for the
template arguments. Integers are written big-endian, signed ones with the sign bit flipped, strings
after their length.

`deserialize_impl` takes the offset and the value by reference and returns whether it succeeded: it
returns all three here. A read past the end of the string has no result (`none`). The offset never
exceeds the size of the string, so its sums do not wrap.
-/

namespace XCache

namespace RedisAdapter

/-- A `std::string`. -/
abbrev Str := List UInt8

/-- The types `serialize_impl` is overloaded for. -/
inductive FieldType
  | int
  | int64
  | uint64
  | string
  deriving DecidableEq

abbrev FieldType.Value : FieldType → Type
  | .int => Int32
  | .int64 => Int64
  | .uint64 => UInt64
  | .string => Str

/-- A function's arguments of the given types. -/
def Values : List FieldType → Type
  | [] => Unit
  | t :: ts => t.Value × Values ts

/-! ## `serialize` -/

/-- `buf[i] = (u >> k) & 0xFF` for the `bytes` bytes of `buf`, where `k` falls to 0 by 8. -/
def putWord {n : ℕ} (bytes : ℕ) (u : BitVec n) : Str :=
  (List.range bytes).map fun i => UInt8.ofNat ((u >>> (8 * bytes - 8 - 8 * i)) &&& 0xFF).toNat

def serializeImpl : (t : FieldType) → t.Value → Str
  | .int, val => putWord 4 (val.toBitVec ^^^ 0x80000000#32)
  | .int64, val => putWord 8 (val.toBitVec ^^^ 0x8000000000000000#64)
  | .uint64, val => putWord 8 val.toBitVec
  | .string, str => putWord 4 (BitVec.ofNat 32 str.length) ++ str

def serialize : (ts : List FieldType) → Values ts → Str
  | [], _ => []
  | t :: ts, (first, rest) => serializeImpl t first ++ serialize ts rest

/-! ## `deserialize` -/

/-- `u = (u << 8) | str[offset + i]` for `bytes` bytes. -/
def getWord (n : ℕ) (str : Str) (offset bytes : ℕ) : Option (BitVec n) :=
  (List.range bytes).foldlM (fun u i => do
    let b ← str[offset + i]?
    return (u <<< 8) ||| BitVec.ofNat n b.toNat) 0

/-- `deserialize_impl` of an integer, with what it makes of the word. -/
def deserializeInt {α : Type} {n : ℕ} (bytes : ℕ) (cast : BitVec n → α) (str : Str) (offset : ℕ)
    (val : α) : Option (Bool × ℕ × α) :=
  if offset + bytes > str.length then some (false, offset, val)
  else do
    let u ← getWord n str offset bytes
    return (true, offset + bytes, cast u)

def deserializeString (str : Str) (offset : ℕ) (val : Str) : Option (Bool × ℕ × Str) :=
  if offset + 4 > str.length then some (false, offset, val)
  else do
    let len ← getWord 32 str offset 4
    let offset := offset + 4
    if offset + len.toNat > str.length then return (false, offset, val)
    else return (true, offset + len.toNat, (str.drop offset).take len.toNat)

def deserializeImpl : (t : FieldType) → Str → ℕ → t.Value → Option (Bool × ℕ × t.Value)
  | .int => deserializeInt 4 fun u => Int32.ofBitVec (u ^^^ 0x80000000#32)
  | .int64 => deserializeInt 8 fun u => Int64.ofBitVec (u ^^^ 0x8000000000000000#64)
  | .uint64 => deserializeInt 8 fun u => UInt64.ofBitVec u
  | .string => deserializeString

def deserializeAll : (ts : List FieldType) → Str → ℕ → Values ts → Option (Bool × ℕ × Values ts)
  | [], str, offset, vals => some (offset = str.length, offset, vals)
  | t :: ts, str, offset, (first, rest) => do
    let (ok, offset, first) ← deserializeImpl t str offset first
    if ok = false then return (false, offset, (first, rest))
    else do
      let (ok, offset, rest) ← deserializeAll ts str offset rest
      return (ok, offset, (first, rest))

def deserialize (ts : List FieldType) (str : Str) (vals : Values ts) :
    Option (Bool × Values ts) := do
  let (ok, _, vals) ← deserializeAll ts str 0 vals
  return (ok, vals)

end RedisAdapter

end XCache
