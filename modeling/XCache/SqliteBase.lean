import XCache.Lib.Program
import XCache.Lib.Machine

/-!
# Statements, step by step

`SQLiteBase` of `sqlite_base.{h,cpp}`: how `execute`, `query_count`, `query_single` and
`query_multi` take a statement through `sqlite3_prepare_v2`, `sqlite3_step` and `sqlite3_finalize`.

Of SQLite: a statement that is stepped runs on the database as it is, all its changes made by the
first step, and yields its rows one by one, then `SQLITE_DONE` or an error; stepped again after
that, it runs again. To finalize it destroys it, and gives the error of its last step if there was
one; where the last step gave a row, the run is cut off there, which may be an error of its own. To
use a destroyed statement is an error of the program (`misused`), and a connection with a
statement that is not destroyed does not close.

The values a statement is bound with are part of it; `SqliteColumns` has the binding.
-/

namespace XCache

namespace SqliteBase

/-- One run of a statement, of which there is an end. -/
structure Execution (δ ρ : Type) where
  rows : List ρ
  /-- It ends with `SQLITE_DONE`. -/
  done : Bool
  db : δ
  /-- To cut it off at a row is no error. -/
  stops : Bool

abbrev Statement (δ ρ : Type) := δ → Execution δ ρ

/-- Where a prepared statement is. -/
inductive Cursor (ρ : Type)
  | reset  -- not run, or at its end
  | running (left : List ρ) (done stops : Bool)
  | failed

/-- To finalize the statement is no error. -/
def Cursor.clean {ρ : Type} : Cursor ρ → Bool
  | .reset => true
  | .running _ _ stops => stops
  | .failed => false

/-- What `sqlite3_step` returns, with the row that can be read then. -/
inductive Code (ρ : Type)
  | row (r : ρ)
  | done
  | error

def Code.isDone {ρ : Type} : Code ρ → Bool
  | .done => true
  | .row _ | .error => false

structure Prepared (δ ρ : Type) where
  statement : Statement δ ρ
  cursor : Cursor ρ

structure Connection (δ ρ : Type) where
  db : δ
  /-- The statements in the order they were prepared in, `none` once they are destroyed. -/
  statements : List (Option (Prepared δ ρ))
  misused : Bool

inductive SqlError
  | prepare
  | finalize
  | simple
  | execute
  | tooManyEntries
  | unfinished  -- no exception of the source: a loop has used up the iterations it is granted
  deriving DecidableEq

/-- The text of the exception, to which SQLite's own is appended but in the last case. -/
def SqlError.what : SqlError → String
  | .prepare => "sql prepare failed: "
  | .finalize => "sql finalize failed: "
  | .simple => "simple sql error: "
  | .execute => "sql execute error: "
  | .tooManyEntries => "too many entries"
  | .unfinished => ""

abbrev Sql (δ ρ α : Type) := EStateM SqlError (Connection δ ρ) α

variable {δ ρ α : Type}

/-! ## SQLite -/

/-- A step of a statement that runs. -/
def Cursor.next : List ρ → Bool → Bool → Code ρ × Cursor ρ
  | r :: left, done, stops => (.row r, .running left done stops)
  | [], true, _ => (.done, .reset)
  | [], false, _ => (.error, .failed)

def Prepared.step (p : Prepared δ ρ) (db : δ) : Code ρ × Prepared δ ρ × δ :=
  match p.cursor with
  | .running left done stops =>
    ((Cursor.next left done stops).1, { p with cursor := (Cursor.next left done stops).2 }, db)
  | .reset | .failed =>
    let e := p.statement db
    ((Cursor.next e.rows e.done e.stops).1,
      { p with cursor := (Cursor.next e.rows e.done e.stops).2 }, e.db)

/-- `sqlite3_step`. -/
def sqlite3Step (h : ℕ) : Sql δ ρ (Code ρ) := fun c =>
  match c.statements[h]? with
  | some (some p) =>
    .ok (p.step c.db).1 { c with
      db := (p.step c.db).2.2
      statements := c.statements.set h (some (p.step c.db).2.1) }
  | _ => .ok .error { c with misused := true }

/-- `sqlite3_finalize`, with whether it returns `SQLITE_OK`. -/
def sqlite3Finalize (h : ℕ) : Sql δ ρ Bool := fun c =>
  match c.statements[h]? with
  | some (some p) =>
    .ok p.cursor.clean { c with statements := c.statements.set h none }
  | _ => .ok false { c with misused := true }

/-- `sqlite3_close`, with whether it returns `SQLITE_OK`. -/
def sqlite3Close (c : Connection δ ρ) : Bool := c.statements.all Option.isNone

/-! ## `SQLiteBase` -/

/-- `sqlite3_pre`, for a text that is a statement or none. -/
def sqlite3Pre (sql : Option (Statement δ ρ)) : Sql δ ρ ℕ := fun c =>
  match sql with
  | some statement =>
    .ok c.statements.length { c with statements := c.statements ++ [some ⟨statement, .reset⟩] }
  | none => .error .prepare c

def sqlite3Final (h : ℕ) : Sql δ ρ Unit := do
  let ok ← sqlite3Finalize h
  throwIf (ok = false) .finalize

def perror (res : Code ρ) (h : ℕ) : Sql δ ρ Unit :=
  match res with
  | .row _ | .done => pure ()
  | .error => do
    let _ ← sqlite3Finalize h
    throw .execute

/-- `while((res = sqlite3_step(stmt)) == SQLITE_ROW)`, for at most `fuel` iterations, with the rows
and the `res` after the last. -/
def stepRows (h : ℕ) : ℕ → List ρ → Sql δ ρ (List ρ × Code ρ)
  | 0, _ => throw .unfinished
  | fuel + 1, rows => do
    let res ← sqlite3Step h
    match res with
    | .row r => stepRows h fuel (rows ++ [r])
    | .done | .error => return (rows, res)

/-- As many iterations as a statement has rows on the database, and one more. -/
def iterations (sql : Option (Statement δ ρ)) (db : δ) : ℕ :=
  match sql with
  | some statement => (statement db).rows.length + 1
  | none => 0

/-- `execute` with arguments to bind; `changes` is `sqlite3_changes`. -/
def execute (changes : δ → ℤ) (sql : Option (Statement δ ρ)) : Sql δ ρ ℤ := do
  let c ← get
  let h ← sqlite3Pre sql
  let (_, res) ← stepRows h (iterations sql c.db) []
  perror res h
  sqlite3Final h
  let c ← get
  return changes c.db

/-- `query_single`: `zero` is the value-initialised tuple, and `getRow` is `get_row`. -/
def querySingle (zero : α) (getRow : ρ → α) (sql : Option (Statement δ ρ)) : Sql δ ρ α := do
  let h ← sqlite3Pre sql
  let res ← sqlite3Step h
  perror res h
  let result := match res with
    | .row r => getRow r
    | .done | .error => zero
  let res ← sqlite3Step h
  perror res h
  sqlite3Final h
  throwIf (res.isDone = false) .tooManyEntries
  return result

/-- `query_count`, which is `query_single` of one `int`. -/
def queryCount (columnInt : ρ → ℤ) (sql : Option (Statement δ ρ)) : Sql δ ρ ℤ :=
  querySingle 0 columnInt sql

def queryMulti (getRow : ρ → α) (sql : Option (Statement δ ρ)) : Sql δ ρ (List α) := do
  let c ← get
  let h ← sqlite3Pre sql
  let (rows, res) ← stepRows h (iterations sql c.db) []
  perror res h
  sqlite3Final h
  return rows.map getRow

/-- `execute` of a text alone, by `sqlite3_exec`. -/
def executeSimple (changes : δ → ℤ) (sql : Option (Statement δ ρ)) : Sql δ ρ ℤ :=
  match sql with
  | some statement => do
    let c ← get
    set { c with db := (statement c.db).db }
    throwIf ((statement c.db).done = false) .simple
    return changes (statement c.db).db
  | none => throw .simple

/-- What a caller asks of the connection. -/
inductive Op (δ ρ α : Type)
  | execute (sql : Option (Statement δ ρ))
  | executeSimple (sql : Option (Statement δ ρ))
  | count (sql : Option (Statement δ ρ))
  | single (zero : α) (getRow : ρ → α) (sql : Option (Statement δ ρ))
  | multi (getRow : ρ → α) (sql : Option (Statement δ ρ))

inductive Ret (α : Type)
  | number (n : ℤ)
  | entry (a : α)
  | entries (as : List α)

def call (changes : δ → ℤ) (columnInt : ρ → ℤ) : Op δ ρ α → Sql δ ρ (Ret α)
  | .execute sql => Ret.number <$> execute changes sql
  | .executeSimple sql => Ret.number <$> executeSimple changes sql
  | .count sql => Ret.number <$> queryCount columnInt sql
  | .single zero getRow sql => Ret.entry <$> querySingle zero getRow sql
  | .multi getRow sql => Ret.entries <$> queryMulti getRow sql

def step (changes : δ → ℤ) (columnInt : ρ → ℤ) (c : Connection δ ρ) (op : Op δ ρ α) :
    Except SqlError (Ret α) × Connection δ ρ :=
  outcome (call changes columnInt op) c

/-- A connection that has just been opened. -/
def connect (db : δ) : Connection δ ρ where
  db := db
  statements := []
  misused := false

end SqliteBase

end XCache
