import XCache.SqliteBase

/-!
# A store, from one session to the next

The constructors of `SQLiteLRU` and `SQLiteLFUDA` in `db_sqlite_lru.h` and `db_sqlite_lfuda.h`, and
their callers in `algo_lru_sqlite_test.cpp` and `algo_lfuda_sqlite_test.cpp`: a session constructs
the adapter, inserts the meta row if the database is new, and goes on to `init`, which queries it,
and to calls that update it. `open` tells whether the file was there, and creates it if not.

A session may be cut short before any of its statements: the process ends there, or the statement
fails and an exception leaves `main`. What has been executed by then is in the file. The work
directory is there, the cache table's rows are left out, and so is whatever else a session does
between two updates of the meta row.

Of SQLite: a statement about a table that is not there cannot be prepared, and a table that is there
cannot be created; the meta table has one row at most.
-/

namespace XCache

namespace SqliteStore

open SqliteBase

/-- The names in the statements. -/
structure Names where
  cacheTable : String
  metaTable : String
  index : String
  differ : cacheTable ≠ metaTable

def lru : Names := ⟨"cacheLRU", "metaLRU", "indexLRU", by decide⟩

def lfuda : Names := ⟨"cacheLFUDA", "metaLFUDA", "indexLFUDA", by decide⟩

/-- What is in the file; `μ` are the columns of the meta table. -/
structure Schema (μ : Type) where
  tables : List String
  indices : List String
  metaRows : List μ

def Schema.empty {μ : Type} : Schema μ := ⟨[], [], []⟩

variable {μ : Type}

/-- A row is a name from `sqlite_master`, or one of the meta table. -/
abbrev Master (μ : Type) := Statement (Schema μ) (String ⊕ μ)

abbrev Program (μ α : Type) := Sql (Schema μ) (String ⊕ μ) α

/-- The statement of an SQL text, or none if it cannot be prepared. -/
abbrev Text (μ : Type) := Schema μ → Option (Master μ)

/-! ## The statements -/

/-- `SQL_CREATE_LRU` and so on. -/
def createTable (name : String) : Text μ := fun d =>
  if name ∈ d.tables then none
  else some fun d => ⟨[], true, { d with tables := d.tables ++ [name] }, true⟩

/-- `SQL_CHECK_LRU` and so on. -/
def checkTable (name : String) : Text μ := fun _ =>
  some fun d => ⟨(d.tables.filter (· = name)).map .inl, true, d, true⟩

/-- `SQL_CREATE_INDEX_LRU` and `SQL_CREATE_INDEX_LFUDA`. -/
def createIndex (n : Names) : Text μ := fun d =>
  if n.cacheTable ∈ d.tables then
    some fun d => ⟨[], true,
      if n.index ∈ d.indices then d else { d with indices := d.indices ++ [n.index] }, true⟩
  else none

/-- A text about the meta table. -/
def onMeta (n : Names) (statement : Master μ) : Text μ := fun d =>
  if n.metaTable ∈ d.tables then some statement else none

/-- `SQL_INSERT_METALRU` and `SQL_INSERT_METALFUDA`. -/
def insertMeta (m : μ) : Master μ := fun d =>
  if d.metaRows = [] then ⟨[], true, { d with metaRows := [m] }, true⟩ else ⟨[], false, d, true⟩

/-- `SQL_UPDATE_METALRU` and `SQL_UPDATE_METALFUDA`. -/
def updateMeta (m : μ) : Master μ := fun d =>
  ⟨[], true, { d with metaRows := d.metaRows.map fun _ => m }, true⟩

/-- `SQL_QUERY_METALRU` and `SQL_QUERY_METALFUDA`. -/
def queryMeta : Master μ := fun d => ⟨d.metaRows.map .inr, true, d, true⟩

/-! ## A session -/

/-- Where a session is cut short, the meta row it would insert, and the ones it updates it to. -/
structure Session (μ : Type) where
  stop : ℕ
  inserted : μ
  updates : List μ

variable (n : Names) (zero : μ) (stop : ℕ)

/-- Statement number `i` of a session: where the session is cut short, it does nothing. -/
def attempt (i : ℕ) (sql : Text μ) : Text μ := fun d =>
  if stop ≤ i then some fun d => ⟨[], false, d, true⟩ else sql d

/-- `execute` of a text alone. -/
def exec (i : ℕ) (sql : Text μ) : Program μ Unit := do
  let c ← get
  let _ ← executeSimple (fun _ => 0) (attempt stop i sql c.db)

/-- `execute` of a text and values. -/
def execBound (i : ℕ) (sql : Text μ) : Program μ Unit := do
  let c ← get
  let _ ← execute (fun _ => 0) (attempt stop i sql c.db)

/-- The constructor's body. -/
def construct (isNew : Bool) : Program μ Unit := do
  if isNew then do
    exec stop 0 (createTable n.cacheTable)
    exec stop 1 (createTable n.metaTable)
  else do
    exec stop 0 (checkTable n.cacheTable)
    exec stop 1 (checkTable n.metaTable)
  exec stop 2 (createIndex n)

/-- `query_meta`, with which `init` begins. -/
def query : Program μ μ := do
  let c ← get
  querySingle zero (Sum.elim (fun _ => zero) id) (attempt stop 4 (onMeta n queryMeta) c.db)

/-- `update_meta`, once for each of the given rows. -/
def updateAll : ℕ → List μ → Program μ Unit
  | _, [] => pure ()
  | i, m :: ms => do
    execBound stop i (onMeta n (updateMeta m))
    updateAll (i + 1) ms

/-- `main`: what `query_meta` returns. -/
def main (s : Session μ) (isNew : Bool) : Program μ μ := do
  construct n s.stop isNew
  if isNew then execBound s.stop 3 (onMeta n (insertMeta s.inserted)) else pure ()
  let m ← query n zero s.stop
  updateAll n s.stop 5 s.updates
  return m

/-- A session, on the file if there is one. -/
def step (file : Option (Schema μ)) (s : Session μ) :
    Except SqlError μ × Option (Schema μ) :=
  let r := outcome (main n zero s file.isNone) (connect (file.getD .empty))
  (r.1, some r.2.db)

end SqliteStore

end XCache
