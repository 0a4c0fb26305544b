import XCache.SqliteCache
import XCache.Lib.Least
import XCache.Lib.Machine

/-!
# The SQLite-backed LFUDA

`db_sqlite_lfuda.h` and `algo_lfuda_sqlite.cpp`. A row's `eff` is its `freq` plus the value
`global_aging` had when it was last accessed; eviction takes the row with the smallest `eff`, and
`global_aging` becomes that row's `eff`.

`ORDER BY eff, freq, timestamp, size` leaves ties open. A `Resolver` is one way SQLite may resolve
them.
-/

namespace XCache

/-- The LFUDA's own columns. -/
@[ext] structure LfudaCols where
  timestamp : Int64
  freq : Int64
  eff : Int64
  deriving DecidableEq

/-- The LFUDA's own fields of `CacheLFUDA`. -/
@[ext] structure Tfe where
  timestamp : UInt64
  freq : UInt64
  eff : UInt64
  deriving DecidableEq

instance : Columns LfudaCols where
  Clash _ _ := False
  decClash _ _ := inferInstanceAs (Decidable False)

namespace Lfuda

abbrev Row := XCache.Row LfudaCols
abbrev Cache := XCache.Cache Tfe
abbrev Table := XCache.Table LfudaCols
abbrev World := XCache.World LfudaCols Tfe UInt64
abbrev Call := XCache.Call LfudaCols Tfe UInt64
abbrev Op := XCache.Op Tfe UInt64
abbrev Ret := XCache.Ret Tfe

/-- What SQLite sorts by: signed integers, in lexicographic order. -/
def rank (r : Row) : ℤ ×ₗ ℤ ×ₗ ℤ ×ₗ ℤ :=
  toLex (r.cols.eff.toInt, toLex (r.cols.freq.toInt, toLex (r.cols.timestamp.toInt,
    r.size.toInt)))

/-- A choice of `ORDER BY eff ASC, freq ASC, timestamp ASC, size ASC LIMIT 1`. -/
structure Resolver where
  pick : Table → Option Row
  pick_none : ∀ {t}, pick t = none → t.rows = []
  pick_mem : ∀ {t r}, pick t = some r → r ∈ t.rows
  pick_le : ∀ {t r}, pick t = some r → ∀ r' ∈ t.rows, rank r ≤ rank r'

/-- `rank a < rank b`, decided column by column. -/
def rankLt (a b : Row) : Bool :=
  a.cols.eff.toInt < b.cols.eff.toInt || a.cols.eff.toInt = b.cols.eff.toInt &&
    (a.cols.freq.toInt < b.cols.freq.toInt || a.cols.freq.toInt = b.cols.freq.toInt &&
      (a.cols.timestamp.toInt < b.cols.timestamp.toInt ||
        a.cols.timestamp.toInt = b.cols.timestamp.toInt && a.size.toInt < b.size.toInt))

theorem rankLt_iff {a b : Row} : rankLt a b = true ↔ rank a < rank b := by
  simp [rankLt, rank, Prod.Lex.toLex_lt_toLex]

/-- The first of the tied rows in the order of insertion. -/
def Resolver.first : Resolver where
  pick t := least rankLt t.rows
  pick_none := least_none fun _ _ => rankLt_iff
  pick_mem := least_mem
  pick_le := least_le fun _ _ => rankLt_iff

def columnTfe (c : LfudaCols) : Tfe :=
  ⟨columnUInt64 c.timestamp, columnUInt64 c.freq, columnUInt64 c.eff⟩

def bindTfe (f : Tfe) : LfudaCols :=
  ⟨bindUInt64 f.timestamp, bindUInt64 f.freq, bindUInt64 f.eff⟩

def policy (R : Resolver) : Policy LfudaCols Tfe UInt64 where
  bindCols := bindTfe
  column := columnTfe
  zeroFields := ⟨0, 0, 0⟩
  bindExtra := bindUInt64
  columnExtra := columnUInt64
  zeroExtra := 0
  worst := R.pick
  evicted entry _ := entry.fields.eff
  nullKey := .cacheKeyNull
  column_bindCols _ := by simp [columnTfe, bindTfe, columnUInt64, bindUInt64]
  columnExtra_bindExtra _ := by simp [columnUInt64, bindUInt64]
  bindExtra_columnExtra _ := by simp [columnUInt64, bindUInt64]
  worst_mem := R.pick_mem
  worst_none := R.pick_none
  nullKey_isArgument := trivial

/-! ## `db_sqlite_lfuda.h` -/

variable (R : Resolver)

def insertLru (entry : Cache) : Call ℕ := (policy R).insert entry

def updateLfudaTfe (key : Bytes) (timestamp freq eff : UInt64) : Call ℕ :=
  writeTable (·.update (bindText key) fun r => { r with cols := bindTfe ⟨timestamp, freq, eff⟩ })
    (·.count (bindText key))

def updateLfudaContent (key : Bytes) (size : UInt64) : Call ℕ := Policy.updateContent key size

def queryLfudaSingle (key : Bytes) : Call Cache := (policy R).querySingle key

/-- The key of a row and its three fields. -/
def getTime : Option Row → Bytes × Tfe
  | some r => (columnText r.key, columnTfe r.cols)
  | none => ([], ⟨0, 0, 0⟩)

def queryLfudaTime (key : Bytes) : Call (Bytes × Tfe) :=
  readWorld fun w => getTime (w.table.find (bindText key))

def queryLfudaWorst : Call Cache := readWorld fun w => (policy R).getSingle (R.pick w.table)

def deleteLfudaSingle (key : Bytes) : Call Cache := (policy R).deleteSingle key

def deleteLfudaOld : Call Cache := (policy R).deleteOld

/-! ## `algo_lfuda_sqlite.cpp` -/

def removeCache (required : UInt64) (mark : Bytes) : Call Bool :=
  (policy R).removeCache required mark

def updateSize (cache : Cache) (newSize : UInt64) : Call Unit :=
  (policy R).updateSize cache newSize

def init : Call Unit := do
  let m ← (policy R).queryMeta
  modify fun w => { w with metaMem := m }
  throwIf (m.maxSize = 0) (.algo .initMaxSize)
  let entry ← queryLfudaWorst R
  throwIf (entry.key = [] ∧ m.cacheSize ≠ 0) (.algo .initEmpty)
  throwIf (entry.key ≠ [] ∧ entry.size > m.cacheSize) (.algo .initCacheSize)
  if m.cacheSize > m.maxSize then do
    let _ ← removeCache R 0 []
  else pure ()

def backup : Call Unit := (policy R).backup

def renew (key : Bytes) (timestamp : UInt64) : Call Bool := do
  throwIf (key = []) (.algo .keyNull)
  let entry ← queryLfudaTime key
  if entry.1 ≠ [] then do
    let timestamp := if entry.2.timestamp > timestamp then entry.2.timestamp else timestamp
    let w ← get
    let freq := entry.2.freq + 1
    let eff := freq + w.metaMem.extra
    let changed ← updateLfudaTfe key timestamp freq eff
    throwIf (changed = 0) (.algo .fatalLogic)
    return true
  else return false

def put (cache : Cache) : Call Bool := do
  throwIf (cache.key = []) (.algo .cacheKeyNull)
  let w ← get
  throwIf (cache.size = 0 ∨ cache.size > w.metaMem.maxSize) (.algo .sizeRange)
  let entry ← queryLfudaSingle R cache.key
  if entry.key = [] then do
    let _ ← removeCache R cache.size []
    let w ← get
    let tmp : Cache := { cache with
      fields := { cache.fields with freq := 1, eff := w.metaMem.extra + 1 } }
    let inserted ← insertLru R tmp
    throwIf (inserted = 0) (.algo .fatalLogic)
    modify fun w => { w with metaMem := { w.metaMem with
      cacheSize := w.metaMem.cacheSize + tmp.size } }
    return true
  else do
    let renewed ← renew entry.key cache.fields.timestamp
    throwIf (renewed = false) (.algo .fatalLogic)
    if cache.size > entry.size then do
      updateSize R entry cache.size
      return false
    else return false

def update (key : Bytes) (newSize : UInt64) : Call Bool := (policy R).update key newSize

def resize (newSize : UInt64) : Call Unit := (policy R).resize newSize

def query (key : Bytes) : Call Cache := (policy R).query key

/-! ## Runs -/

def call : Op → Call Ret
  | .put c => Ret.bool <$> put R c
  | .renew k ts => Ret.bool <$> renew k ts
  | .update k n => Ret.bool <$> update R k n
  | .resize n => (fun _ => Ret.unit) <$> resize R n
  | .query k => Ret.entry <$> query R k
  | .backup => (fun _ => Ret.unit) <$> backup R

/-- Each call may resolve its ties in its own way. -/
def step (w : World) (op : Resolver × Op) : Except Error Ret × World := outcome (call op.1 op.2) w

/-- A new object on a database that holds no row and `meta` row `{0, M, 0}`. -/
def fresh (M : UInt64) : World :=
  (policy .first).construct Table.empty (some ((policy .first).bindMeta ⟨0, M, 0⟩)) []

/-- That object after `init`. -/
def start (M : UInt64) : World := (outcome (init .first) (fresh M)).2

/-- The destructor, then the constructor and `init` on the same database. -/
def restart : Call Unit := do
  backup R
  modify fun w => { w with metaMem := ⟨0, 0, 0⟩ }
  init R

end Lfuda

end XCache
