import XCache.SqliteCache
import XCache.Lib.Least
import XCache.Lib.Machine

/-!
# The SQLite-backed LRU

`db_sqlite_lru.h` and `algo_lru_sqlite.cpp`. Recency is the `sequence` column: every insertion and
every renewal writes the next number, and eviction takes the row with the smallest.
-/

namespace XCache

/-- The LRU's own column, `sequence INTEGER NOT NULL UNIQUE`, and the field of `CacheLRU`. -/
@[ext] structure LruCols where
  sequence : Int64
  deriving DecidableEq

instance : Columns LruCols where
  Clash a b := a.sequence = b.sequence
  decClash _ _ := inferInstanceAs (Decidable (_ = _))

namespace Lru

abbrev Row := XCache.Row LruCols
abbrev Cache := XCache.Cache LruCols
abbrev Table := XCache.Table LruCols
abbrev World := XCache.World LruCols LruCols Int64
abbrev Call := XCache.Call LruCols LruCols Int64
abbrev Op := XCache.Op LruCols Unit
abbrev Ret := XCache.Ret LruCols

/-- What SQLite sorts by. -/
def seq (r : Row) : ℤ := r.cols.sequence.toInt

/-- `ORDER BY sequence ASC LIMIT 1`. -/
def old (t : Table) : Option Row := least (fun a b => seq a < seq b) t.rows

/-- `ORDER BY sequence DESC LIMIT 1`. -/
def new (t : Table) : Option Row := least (fun a b => seq b < seq a) t.rows

def policy : Policy LruCols LruCols Int64 where
  bindCols c := c
  column c := c
  zeroFields := ⟨0⟩
  bindExtra n := n
  columnExtra n := n
  zeroExtra := 0
  worst := old
  evicted _ s := s
  nullKey := .keyNull
  column_bindCols _ := rfl
  columnExtra_bindExtra _ := rfl
  bindExtra_columnExtra _ := rfl
  worst_mem := least_mem
  worst_none := least_none (f := seq) fun _ _ => decide_eq_true_iff
  nullKey_isArgument := trivial

/-! ## `db_sqlite_lru.h` -/

def insertLru (entry : Cache) : Call ℕ := policy.insert entry

def updateLruSeq (key : Bytes) (sequence : Int64) : Call ℕ :=
  writeTable (·.update (bindText key) fun r => { r with cols := ⟨sequence⟩ })
    (·.count (bindText key))

def updateLruContent (key : Bytes) (size : UInt64) : Call ℕ := Policy.updateContent key size

def queryLruSingle (key : Bytes) : Call Cache := policy.querySingle key

def queryLruNew : Call Cache := readWorld fun w => policy.getSingle (new w.table)

/-- The rows of `ORDER BY sequence ASC`, popped from the back. -/
def queryLruAll : Call (List Cache) :=
  readWorld fun w =>
    ((w.table.rows.insertionSort fun a b => seq a ≤ seq b).map policy.getRow).reverse

def deleteLruSingle (key : Bytes) : Call Cache := policy.deleteSingle key

def deleteLruOld : Call Cache := policy.deleteOld

/-! ## `algo_lru_sqlite.cpp` -/

def removeCache (required : UInt64) (mark : Bytes) : Call Bool := policy.removeCache required mark

def updateSize (cache : Cache) (newSize : UInt64) : Call Unit := policy.updateSize cache newSize

def init : Call Unit := do
  let m ← policy.queryMeta
  modify fun w => { w with metaMem := m }
  throwIf (m.maxSize = 0) (.algo .initMaxSize)
  let entry ← queryLruNew
  throwIf (entry.key = [] ∧ m.cacheSize ≠ 0) (.algo .initEmpty)
  throwIf (entry.key ≠ [] ∧ entry.fields.sequence ≠ m.extra) (.algo .initSequence)
  throwIf (entry.key ≠ [] ∧ entry.size > m.cacheSize) (.algo .initCacheSize)
  if m.cacheSize > m.maxSize then do
    let _ ← removeCache 0 []
  else pure ()

def backup : Call Unit := policy.backup

def renew (key : Bytes) : Call Bool := do
  throwIf (key = []) (.algo .keyNull)
  let w ← get
  let changed ← updateLruSeq key (w.metaMem.extra + 1)
  if changed ≠ 0 then do
    modify fun w => { w with metaMem := { w.metaMem with extra := w.metaMem.extra + 1 } }
    return true
  else return false

def put (cache : Cache) : Call Bool := do
  throwIf (cache.key = []) (.algo .keyNull)
  let w ← get
  throwIf (cache.size = 0 ∨ cache.size > w.metaMem.maxSize) (.algo .sizeRange)
  let entry ← queryLruSingle cache.key
  if entry.key = [] then do
    let _ ← removeCache cache.size []
    let w ← get
    let tmp : Cache := { cache with fields := ⟨w.metaMem.extra + 1⟩ }
    let inserted ← insertLru tmp
    throwIf (inserted = 0) (.algo .fatalLogic)
    modify fun w => { w with metaMem := { w.metaMem with
      extra := w.metaMem.extra + 1, cacheSize := w.metaMem.cacheSize + tmp.size } }
    return true
  else do
    let renewed ← renew entry.key
    throwIf (renewed = false) (.algo .fatalLogic)
    if cache.size > entry.size then do
      updateSize entry cache.size
      return false
    else return false

def update (key : Bytes) (newSize : UInt64) : Call Bool := policy.update key newSize

def resize (newSize : UInt64) : Call Unit := policy.resize newSize

def query (key : Bytes) : Call Cache := policy.query key

/-! ## Runs -/

def call : Op → Call Ret
  | .put c => Ret.bool <$> put c
  | .renew k _ => Ret.bool <$> renew k
  | .update k n => Ret.bool <$> update k n
  | .resize n => (fun _ => Ret.unit) <$> resize n
  | .query k => Ret.entry <$> query k
  | .backup => (fun _ => Ret.unit) <$> backup

def step (w : World) (op : Op) : Except Error Ret × World := outcome (call op) w

/-- A new object on a database that holds no row and `meta` row `{0, M, 0}`. -/
def fresh (M : UInt64) : World :=
  policy.construct Table.empty (some (policy.bindMeta ⟨0, M, 0⟩)) []

/-- That object after `init`. -/
def start (M : UInt64) : World := (outcome init (fresh M)).2

/-- The destructor, then the constructor and `init` on the same database. -/
def restart : Call Unit := do
  backup
  modify fun w => { w with metaMem := ⟨0, 0, 0⟩ }
  init

end Lru

end XCache
