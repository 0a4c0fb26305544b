import XCache.SqliteCache
import XCache.Lib.Machine
import XCache.Lib.Nodes

/-!
# What the two in-memory caches share

`algo_lru.cpp` and `algo_lfuda.cpp` keep the entries in `cache_list` or `cache_bst`, and in
`cache_map` an iterator for each key. The two agree in `backup`, `resize`, `query` and
`remove_cache`, but for the node that is evicted and what the eviction does to `aging`: a
`MemoryPolicy` is what they differ in.

To dereference an iterator that dangles, or `end()`, is undefined behaviour: the call ends in
`dangling`. What the objects print to `std::cerr` is left out.
-/

namespace XCache

/-- How a call ends that does not return: it throws, or its behaviour is undefined. `unfinished`
marks a loop that has used up the iterations the model grants it. -/
inductive MemoryError
  | algo (e : AlgoError)
  | dangling
  | unfinished
  deriving DecidableEq

/-- A cache object: `nodes` is `cache_list` or `cache_bst`, `extra` the policy's own state. -/
structure Memory (τ ε : Type) where
  nodes : Nodes (Cache τ)
  /-- `cache_map`. -/
  map : AList fun _ : Bytes => ℕ
  maxSize : UInt64
  cacheSize : UInt64
  extra : ε
  delivered : List (List (Cache τ))

abbrev MemoryCall (τ ε : Type) := EStateM MemoryError (Memory τ ε)

structure MemoryPolicy (τ ε : Type) where
  /-- The nodes in the order they are evicted: `remove_cache` takes them from `cache_list.end()`
  on backwards, or from `cache_bst.begin()`. -/
  order : List (Node (Cache τ)) → List (Node (Cache τ))
  /-- The size the loop of `remove_cache` checks. -/
  size : Memory τ ε → ℕ
  /-- The policy's own state after an eviction. -/
  evicted : Cache τ → ε → ε
  zeroFields : τ
  order_perm : ∀ l, (order l).Perm l
  order_filter : ∀ p l, order (l.filter p) = (order l).filter p

variable {τ ε : Type}

namespace Memory

/-- `*it`. -/
def deref (it : ℕ) : MemoryCall τ ε (Cache τ) := do
  let s ← get
  match s.nodes.find it with
  | some n => return n.val
  | none => throw .dangling

/-- `if(removed.size())remove_callback(removed);` -/
def report (removed : List (Cache τ)) : MemoryCall τ ε Unit :=
  if removed = [] then pure ()
  else modify fun s => { s with delivered := s.delivered ++ [removed] }

/-- `backup`: the entries from `begin()` to `end()`. -/
def backup : MemoryCall τ ε (List (Cache τ)) := do
  let s ← get
  set { s with nodes := s.nodes.clear, map := ∅, cacheSize := 0 }
  return s.nodes.vals

/-- The constructor, for a `max_size` that is not zero. -/
def construct (maxSize : UInt64) (extra : ε) : Memory τ ε where
  nodes := .empty
  map := ∅
  maxSize := maxSize
  cacheSize := 0
  extra := extra
  delivered := []

end Memory

namespace MemoryPolicy

variable (P : MemoryPolicy τ ε)

/-- The body of the loop of `remove_cache`. -/
def evictOne (s : Memory τ ε) (del : Node (Cache τ)) : Memory τ ε :=
  { s with
    nodes := s.nodes.erase del.addr
    map := s.map.erase del.val.key
    cacheSize := s.cacheSize - del.val.size
    extra := P.evicted del.val s.extra }

/-- The loop of `remove_cache`, for at most `fuel` iterations. -/
def removeLoop (required : UInt64) : ℕ → List (Cache τ) → MemoryCall τ ε Unit
  | 0, _ => throw .unfinished
  | fuel + 1, removed => do
    let s ← get
    if P.size s ≠ 0 ∧ s.cacheSize + required > s.maxSize then
      match (P.order s.nodes.nodes).head? with
      | some del => do
        modify fun s => P.evictOne s del
        removeLoop required fuel (removed ++ [del.val])
      | none => throw .dangling
    else Memory.report removed

/-- `remove_cache`. Every iteration but the last erases a node, so one more than there are nodes is
enough. -/
def removeCache (required : UInt64) : MemoryCall τ ε Unit := do
  let s ← get
  P.removeLoop required (s.nodes.nodes.length + 1) []

def resize (newSize : UInt64) : MemoryCall τ ε Unit := do
  throwIf (newSize = 0) (.algo .maxSizeZero)
  modify fun s => { s with maxSize := newSize }
  P.removeCache 0

def query (key : Bytes) : MemoryCall τ ε (Cache τ) := do
  let s ← get
  match s.map.lookup key with
  | none => return ⟨[], 0, 0, [], P.zeroFields⟩
  | some it => Memory.deref it

end MemoryPolicy

/-! ## Calls -/

/-- A call on an object: `init` takes the entries and what `backup` has returned with them. -/
inductive MemoryOp (τ α β : Type)
  | init (caches : List (Cache τ)) (age : β)
  | call (op : Op τ α)

inductive MemoryRet (τ β : Type)
  | unit
  | bool (b : Bool)
  | entry (c : Cache τ)
  | entries (caches : List (Cache τ)) (age : β)
  deriving DecidableEq

end XCache
