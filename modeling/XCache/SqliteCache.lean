import XCache.Sqlite
import XCache.Lib.Program

/-!
# What the two SQLite caches share

`algo_lru_sqlite.cpp` and `algo_lfuda_sqlite.cpp` agree line by line in `backup`, `update`,
`resize`, `query`, `remove_cache` and `update_size`, but for the statement that picks the victim,
the third field of the meta record and one error text. A `Policy` is what they differ in.

A `World` is one cache object (`metaMem` is `meta_lru` or `meta_lfuda`), its database and the
vectors it has handed to `remove_callback`, which returns. Each SQL statement runs at the next tick
of `clock`; it fails without effect when its tick is one of `fails`. What the object prints to
`std::cerr` is left out.
-/

namespace XCache

/-- What `AlgoErrorLRU` and `AlgoErrorLFUDA` are thrown for. -/
inductive AlgoError
  | keyNull
  | cacheKeyNull
  | sizeRange
  | maxSizeZero
  | initMaxSize
  | initEmpty
  | initSequence
  | initCacheSize
  | emptyVictim
  | cacheSizeMismatch
  | fatalLogic
  deriving DecidableEq

def AlgoError.what : AlgoError → String
  | .keyNull => "key must not be null"
  | .cacheKeyNull => "cache_key must not be null"
  | .sizeRange => "size must not be zero or greater than max_size"
  | .maxSizeZero => "max_size must not be zero"
  | .initMaxSize => "db error(init check): max_size must not be zero"
  | .initEmpty => "db error(init check): empty cache but cache_size mismatch"
  | .initSequence => "db error(init check): sequence mismatch"
  | .initCacheSize => "db error(init check): cache_size mismatch"
  | .emptyVictim => "db error: cache_size mismatch or cache with empty key"
  | .cacheSizeMismatch => "db error: cache_size mismatch"
  | .fatalLogic => "db error: fatal logic error"

/-- The texts of the argument checks; every other text starts with "db error". -/
def AlgoError.IsArgument : AlgoError → Prop
  | .keyNull | .cacheKeyNull | .sizeRange | .maxSizeZero => True
  | _ => False

instance : DecidablePred AlgoError.IsArgument
  | .keyNull | .cacheKeyNull | .sizeRange | .maxSizeZero => isTrue trivial
  | .initMaxSize | .initEmpty | .initSequence | .initCacheSize | .emptyVictim
  | .cacheSizeMismatch | .fatalLogic => isFalse id

/-- The texts of `init`'s checks. -/
def AlgoError.IsInitCheck : AlgoError → Prop
  | .initMaxSize | .initEmpty | .initSequence | .initCacheSize => True
  | _ => False

/-- Why a statement throws `SQLiteError`: SQLite failed, or a constraint would be broken. -/
inductive SqliteFailure
  | failed
  | constraint
  deriving DecidableEq

/-- What leaves a call as an exception. `unfinished` is no exception of the source: it marks a
loop that has used up the iterations the model grants it. -/
inductive Error
  | algo (e : AlgoError)
  | sqlite (e : SqliteFailure)
  | unfinished
  deriving DecidableEq

@[ext] structure World (κ τ ε : Type) [Columns κ] where
  table : Table κ
  metaRow : Option MetaRow
  metaMem : Meta ε
  delivered : List (List (Cache τ))
  clock : ℕ
  fails : List ℕ

abbrev Call (κ τ ε : Type) [Columns κ] := EStateM Error (World κ τ ε)

structure Policy (κ τ ε : Type) [Columns κ] where
  bindCols : τ → κ
  column : κ → τ
  /-- The fields of the value-initialised tuple `query_single` starts from. -/
  zeroFields : τ
  bindExtra : ε → Int64
  columnExtra : Int64 → ε
  /-- A zero third meta field. -/
  zeroExtra : ε
  /-- The row `ORDER BY … LIMIT 1` picks for eviction. -/
  worst : Table κ → Option (Row κ)
  /-- The third meta field after an eviction. -/
  evicted : Cache τ → ε → ε
  /-- The error `update` throws for an empty key. -/
  nullKey : AlgoError
  column_bindCols : ∀ c, column (bindCols c) = c
  columnExtra_bindExtra : ∀ x, columnExtra (bindExtra x) = x
  bindExtra_columnExtra : ∀ n, bindExtra (columnExtra n) = n
  worst_mem : ∀ {t r}, worst t = some r → r ∈ t.rows
  worst_none : ∀ {t}, worst t = none → t.rows = []
  nullKey_isArgument : nullKey.IsArgument

variable {κ τ ε : Type} [Columns κ]

/-- One SQL statement. -/
def statement {α : Type} (body : Call κ τ ε α) : Call κ τ ε α := fun w =>
  if w.clock ∈ w.fails then .error (.sqlite .failed) { w with clock := w.clock + 1 }
  else body { w with clock := w.clock + 1 }

/-- A statement that writes the cache table, with the number of rows it changes. -/
def writeTable (f : Table κ → Option (Table κ)) (changes : Table κ → ℕ) : Call κ τ ε ℕ :=
  statement fun w =>
    match f w.table with
    | some t => .ok (changes w.table) { w with table := t }
    | none => .error (.sqlite .constraint) w

/-- A statement that reads. -/
def readWorld {α : Type} (f : World κ τ ε → α) : Call κ τ ε α :=
  statement fun w => .ok (f w) w

def removeCallback (removed : List (Cache τ)) : Call κ τ ε Unit :=
  modify fun w => { w with delivered := w.delivered ++ [removed] }

/-- `if(removed.size())remove_callback(removed);` -/
def report (removed : List (Cache τ)) : Call κ τ ε Unit :=
  if removed = [] then pure () else removeCallback removed

namespace Policy

variable (P : Policy κ τ ε)

/-! ## The adapter: `db_sqlite_lru.h`, `db_sqlite_lfuda.h` -/

/-- `get_row`. -/
def getRow (r : Row κ) : Cache τ where
  key := columnText r.key
  size := columnUInt64 r.size
  downloadTime := columnUInt64 r.downloadTime
  hash := columnBlob r.hash
  fields := P.column r.cols

/-- The entry of a query that returned no row. -/
def noRow : Cache τ := ⟨[], 0, 0, [], P.zeroFields⟩

/-- `query_single` of a statement that returns at most one row. -/
def getSingle : Option (Row κ) → Cache τ
  | some r => P.getRow r
  | none => P.noRow

/-- The row `insert_lru` binds. -/
def bindRow (c : Cache τ) : Row κ where
  key := bindText c.key
  size := bindUInt64 c.size
  downloadTime := bindUInt64 c.downloadTime
  hash := bindBlob c.hash
  cols := P.bindCols c.fields

def insert (entry : Cache τ) : Call κ τ ε ℕ :=
  writeTable (·.insert (P.bindRow entry)) fun _ => 1

/-- `SET size = ?` of a row. -/
def setSize (size : UInt64) (r : Row κ) : Row κ := { r with size := bindUInt64 size }

def updateContent (key : Bytes) (size : UInt64) : Call κ τ ε ℕ :=
  writeTable (·.update (bindText key) (setSize size)) (·.count (bindText key))

def querySingle (key : Bytes) : Call κ τ ε (Cache τ) :=
  readWorld fun w => P.getSingle (w.table.find (bindText key))

def deleteOld : Call κ τ ε (Cache τ) :=
  statement fun w =>
    match P.worst w.table with
    | some r => .ok (P.getRow r) { w with table := w.table.delete r.key }
    | none => .ok P.noRow w

/-- `query_single` of `DELETE FROM … WHERE key = ? RETURNING …`. -/
def deleteSingle (key : Bytes) : Call κ τ ε (Cache τ) :=
  statement fun w =>
    .ok (P.getSingle (w.table.find (bindText key)))
      { w with table := w.table.delete (bindText key) }

def bindMeta (m : Meta ε) : MetaRow where
  cacheSize := bindUInt64 m.cacheSize
  maxSize := bindUInt64 m.maxSize
  extra := P.bindExtra m.extra

def columnMeta (m : MetaRow) : Meta ε where
  cacheSize := columnUInt64 m.cacheSize
  maxSize := columnUInt64 m.maxSize
  extra := P.columnExtra m.extra

/-- The meta record of a query that returned no row. -/
def noMeta : Meta ε := ⟨0, 0, P.zeroExtra⟩

def updateMeta (m : Meta ε) : Call κ τ ε Unit :=
  statement fun w => .ok () { w with metaRow := w.metaRow.map fun _ => P.bindMeta m }

def queryMeta : Call κ τ ε (Meta ε) :=
  readWorld fun w => (w.metaRow.map P.columnMeta).getD P.noMeta

/-! ## The algorithm -/

/-- The constructor. -/
def construct (table : Table κ) (metaRow : Option MetaRow) (fails : List ℕ) : World κ τ ε where
  table := table
  metaRow := metaRow
  metaMem := ⟨0, 0, P.zeroExtra⟩
  delivered := []
  clock := 0
  fails := fails

def backup : Call κ τ ε Unit := do
  let w ← get
  P.updateMeta w.metaMem

/-- What the loop of `remove_cache` writes to the meta record for a victim. -/
def discount (entry : Cache τ) (m : Meta ε) : Meta ε :=
  { m with cacheSize := m.cacheSize - entry.size, extra := P.evicted entry m.extra }

/-- The loop of `remove_cache`, for at most `fuel` iterations. -/
def removeLoop (required : UInt64) (mark : Bytes) :
    ℕ → List (Cache τ) → Bool → Call κ τ ε Bool
  | 0, _, _ => throw .unfinished
  | fuel + 1, removed, flag => do
    let w ← get
    if w.metaMem.cacheSize + required > w.metaMem.maxSize then do
      let entry ← P.deleteOld
      if entry.key = [] then do
        report removed
        throw (.algo .emptyVictim)
      else if w.metaMem.cacheSize ≥ entry.size then do
        modify fun w => { w with metaMem := P.discount entry w.metaMem }
        removeLoop required mark fuel (removed ++ [entry]) (flag || decide (entry.key = mark))
      else do
        removeCallback (removed ++ [entry])
        throw (.algo .cacheSizeMismatch)
    else do
      report removed
      return flag

/-- `remove_cache`. Every iteration but the last deletes a row, so one more than there are rows
is enough. -/
def removeCache (required : UInt64) (mark : Bytes) : Call κ τ ε Bool := do
  let w ← get
  if w.metaMem.cacheSize + required ≤ w.metaMem.maxSize then return false
  else P.removeLoop required mark (w.table.rows.length + 1) [] false

def updateSize (cache : Cache τ) (newSize : UInt64) : Call κ τ ε Unit :=
  if newSize = cache.size then pure ()
  else do
    let aborted ← (if newSize > cache.size then
      P.removeCache (newSize - cache.size) cache.key else pure false)
    if aborted then pure ()
    else do
      let w ← get
      throwIf (¬ w.metaMem.cacheSize ≥ cache.size) (.algo .cacheSizeMismatch)
      modify fun w => { w with metaMem := { w.metaMem with
        cacheSize := w.metaMem.cacheSize - cache.size + newSize } }
      let changed ← updateContent cache.key newSize
      throwIf (changed = 0) (.algo .fatalLogic)

def update (key : Bytes) (newSize : UInt64) : Call κ τ ε Bool := do
  throwIf (key = []) (.algo P.nullKey)
  let w ← get
  throwIf (newSize = 0 ∨ newSize > w.metaMem.maxSize) (.algo .sizeRange)
  let entry ← P.querySingle key
  if entry.key ≠ [] then do
    P.updateSize entry newSize
    return true
  else return false

def resize (newSize : UInt64) : Call κ τ ε Unit := do
  throwIf (newSize = 0) (.algo .maxSizeZero)
  modify fun w => { w with metaMem := { w.metaMem with maxSize := newSize } }
  let _ ← P.removeCache 0 []

def query (key : Bytes) : Call κ τ ε (Cache τ) := do
  throwIf (key = []) (.algo .keyNull)
  P.querySingle key

end Policy

/-! ## Calls -/

/-- A call on a cache object: `α` is what `renew` takes besides the key. `display` is left out: it
prints, and what it does to the database is a `backup`. -/
inductive Op (τ α : Type)
  | put (cache : Cache τ)
  | renew (key : Bytes) (arg : α)
  | update (key : Bytes) (newSize : UInt64)
  | resize (newSize : UInt64)
  | query (key : Bytes)
  | backup

/-- What a call returns. -/
inductive Ret (τ : Type)
  | unit
  | bool (b : Bool)
  | entry (c : Cache τ)
  deriving DecidableEq

end XCache
