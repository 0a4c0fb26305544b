import XCache.MemoryCache

/-!
# The in-memory LRU

`algo_lru.{h,cpp}`. Recency is the place in `cache_list`, whose front is the entry used last.
-/

namespace XCache

namespace MemoryLru

abbrev Cache := XCache.Cache Unit
abbrev State := Memory Unit Unit
abbrev Call := MemoryCall Unit Unit
abbrev Op := MemoryOp Unit Unit Unit
abbrev Ret := MemoryRet Unit Unit

def policy : MemoryPolicy Unit Unit where
  order := List.reverse
  size s := s.nodes.nodes.length
  evicted _ x := x
  zeroFields := ()
  order_perm := List.reverse_perm
  order_filter _ _ := List.filter_reverse.symm

/-- `push_front` of an entry that `cache_map` then points to. -/
def pushFront (s : State) (c : Cache) : State :=
  { s with
    nodes := s.nodes.insert .front c
    map := s.map.insert c.key s.nodes.next
    cacheSize := s.cacheSize + c.size }

/-- `init`: from `caches.back()` on. -/
def init (caches : List Cache) : Call Unit :=
  modify fun s => caches.reverse.foldl pushFront s

def backup : Call (List Cache) := Memory.backup

def removeCache (required : UInt64) : Call Unit := policy.removeCache required

def updateSize (it : ℕ) (size : UInt64) : Call Unit := do
  let entry ← Memory.deref it
  (if size > entry.size then removeCache (size - entry.size) else pure () : Call Unit)
  let entry ← Memory.deref it
  modify fun s =>
    { s with
      cacheSize := s.cacheSize - entry.size + size
      nodes := s.nodes.modify it fun c => { c with size := size } }

def put (cache : Cache) : Call Bool := do
  throwIf (cache.key = []) (.algo .cacheKeyNull)
  if cache.size = 0 then return false
  else do
    let s ← get
    match s.map.lookup cache.key with
    | none => do
      removeCache cache.size
      modify fun s => pushFront s cache
      return true
    | some it => do
      let entry ← Memory.deref it
      if cache.size > entry.size then do
        updateSize it cache.size
        return false
      else return false

def renew (key : Bytes) : Call Bool := do
  let s ← get
  match s.map.lookup key with
  | some it => do
    let entry ← Memory.deref it
    modify fun s => { s with nodes := s.nodes.relink .front it entry }
    return true
  | none => return false

/-- `update` takes the branch of a missing key for a key it has found, and dereferences `end()` for
a key it has not. -/
def update (key : Bytes) (_size : UInt64) : Call Bool := do
  let s ← get
  match s.map.lookup key with
  | none => throw .dangling
  | some _ => return false

def resize (newSize : UInt64) : Call Unit := policy.resize newSize

def query (key : Bytes) : Call Cache := policy.query key

/-! ## Runs -/

def call : Op → Call Ret
  | .init cs _ => (fun _ => .unit) <$> init cs
  | .call (.put c) => .bool <$> put c
  | .call (.renew k _) => .bool <$> renew k
  | .call (.update k n) => .bool <$> update k n
  | .call (.resize n) => (fun _ => .unit) <$> resize n
  | .call (.query k) => .entry <$> query k
  | .call .backup => (.entries · ()) <$> backup

def step (s : State) (op : Op) : Except MemoryError Ret × State := outcome (call op) s

/-- A new object. -/
def start (M : UInt64) : State := .construct M ()

end MemoryLru

end XCache
