import XCache.MemoryCache
import XCache.SqliteLfuda

/-!
# The in-memory LFUDA

`algo_lfuda.{h,cpp}`. `cache_bst` is a `std::set` under `operator<`, and its first entry is the next
to be evicted. Whether an `emplace` or `insert` got its entry in is not looked at by the source;
`rejected` counts those that did not.
-/

namespace XCache

namespace MemoryLfuda

/-- `aging`, and the entries `cache_bst` has not taken in. -/
structure Aging where
  aging : UInt64
  rejected : ℕ
  deriving DecidableEq

abbrev Cache := XCache.Cache Tfe
abbrev State := Memory Tfe Aging
abbrev Call := MemoryCall Tfe Aging
abbrev Op := MemoryOp Tfe UInt64 UInt64
abbrev Ret := MemoryRet Tfe UInt64

/-- `Cache::operator<`. -/
def lt (a b : Cache) : Bool :=
  if a.fields.eff ≠ b.fields.eff then a.fields.eff < b.fields.eff
  else if a.fields.timestamp ≠ b.fields.timestamp then a.fields.timestamp < b.fields.timestamp
  else if a.size ≠ b.size then a.size < b.size
  else a.key < b.key

def policy : MemoryPolicy Tfe Aging where
  order l := l
  size s := s.map.entries.length
  evicted c x := { x with aging := c.fields.eff }
  zeroFields := ⟨0, 0, 0⟩
  order_perm _ := List.Perm.refl _
  order_filter _ _ := rfl

/-- The object after `emplace` or `insert`, with the entry of `cache_map`. -/
def placed (s : State) (key : Bytes) (r : (ℕ × Bool) × Nodes Cache) : State :=
  { s with
    nodes := r.2
    map := s.map.insert key r.1.1
    extra := { s.extra with rejected := s.extra.rejected + if r.1.2 then 0 else 1 } }

/-- `cache_map[key] = cache_bst.emplace(c).first`. -/
def emplace (s : State) (c : Cache) : State := placed s c.key (s.nodes.emplace lt c)

/-- `cache_map[key] = cache_bst.insert(std::move(tmp)).position`, where `tmp` is the node `it`
extracted before and given the value `c`. -/
def insertNode (s : State) (key : Bytes) (it : ℕ) (c : Cache) : State :=
  placed s key (s.nodes.insertNode lt it c)

/-- `cache_bst.extract(it)`. -/
def extract (it : ℕ) : Call Cache := do
  let entry ← Memory.deref it
  modify fun s => { s with nodes := s.nodes.erase it }
  return entry

/-- `init`: from `caches.back()` on. -/
def init (caches : List Cache) (age : UInt64) : Call Unit :=
  modify fun s =>
    let s := caches.reverse.foldl
      (fun s c => { emplace s c with cacheSize := s.cacheSize + c.size }) s
    { s with extra := { s.extra with aging := age } }

def backup : Call (List Cache × UInt64) := do
  let caches ← Memory.backup
  let s ← get
  return (caches, s.extra.aging)

def removeCache (required : UInt64) : Call Unit := policy.removeCache required

/-- `cache_map[key] = update_size(it, size)`. -/
def updateSize (key : Bytes) (it : ℕ) (size : UInt64) : Call Unit := do
  let entry ← Memory.deref it
  (if size > entry.size then removeCache (size - entry.size) else pure () : Call Unit)
  let entry ← Memory.deref it
  modify fun s => { s with cacheSize := s.cacheSize - entry.size + size }
  let tmp ← extract it
  modify fun s => insertNode s key it { tmp with size := size }

def put (cache : Cache) : Call Bool := do
  throwIf (cache.key = []) (.algo .cacheKeyNull)
  if cache.size = 0 then return false
  else do
    let s ← get
    match s.map.lookup cache.key with
    | none => do
      removeCache cache.size
      modify fun s => { s with cacheSize := s.cacheSize + cache.size }
      modify fun s => emplace s
        { cache with fields := { cache.fields with freq := 1, eff := s.extra.aging + 1 } }
      return true
    | some it => do
      let entry ← Memory.deref it
      if cache.size > entry.size then do
        updateSize cache.key it cache.size
        return false
      else return false

def renew (key : Bytes) (timestamp : UInt64) : Call Bool := do
  let s ← get
  match s.map.lookup key with
  | some it => do
    let tmp ← extract it
    modify fun s => insertNode s key it
      { tmp with fields :=
        { timestamp := timestamp
          freq := tmp.fields.freq + 1
          eff := tmp.fields.freq + 1 + s.extra.aging } }
    return true
  | none => return false

def update (key : Bytes) (size : UInt64) : Call Bool := do
  let s ← get
  match s.map.lookup key with
  | some it => do
    let entry ← Memory.deref it
    if size ≠ entry.size then do
      updateSize key it size
      return true
    else return true
  | none => return false

def resize (newSize : UInt64) : Call Unit := policy.resize newSize

def query (key : Bytes) : Call Cache := policy.query key

/-! ## Runs -/

def call : Op → Call Ret
  | .init cs age => (fun _ => .unit) <$> init cs age
  | .call (.put c) => .bool <$> put c
  | .call (.renew k ts) => .bool <$> renew k ts
  | .call (.update k n) => .bool <$> update k n
  | .call (.resize n) => (fun _ => .unit) <$> resize n
  | .call (.query k) => .entry <$> query k
  | .call .backup => (fun r => .entries r.1 r.2) <$> backup

def step (s : State) (op : Op) : Except MemoryError Ret × State := outcome (call op) s

/-- A new object. -/
def start (M : UInt64) : State := .construct M ⟨0, 0⟩

end MemoryLfuda

end XCache
