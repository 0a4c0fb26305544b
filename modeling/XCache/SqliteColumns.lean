import XCache.SqliteLru
import XCache.SqliteLfuda

/-!
# Columns by name and by position

`INSERT` names its columns and binds its parameters one after another; `SELECT *` returns the
columns in the order of `CREATE TABLE`, `RETURNING` in its own; `get_row` reads them by position and
`make_from_tuple` hands them to the constructor in that order. A `Layout` is one class's choice of
these orders.
-/

namespace XCache

/-- What SQLite stores in a column. -/
inductive Value
  | integer (n : Int64)
  | text (t : Bytes)
  | blob (b : Bytes)
  deriving DecidableEq

structure Layout (τ : Type) where
  /-- The columns of `CREATE TABLE`. -/
  created : List String
  /-- The columns `INSERT` names. -/
  inserted : List String
  /-- The columns `RETURNING` names. -/
  returned : List String
  /-- What `insert_lru` binds, in the order of its arguments. -/
  bind : Cache τ → List Value
  /-- `get_row` and `make_from_tuple`. -/
  fromTuple : List Value → Option (Cache τ)

namespace Layout

variable {τ : Type} (L : Layout τ)

/-- The row an insertion stores, by the names of its columns. -/
def stored (entry : Cache τ) (column : String) : Option Value :=
  (L.inserted.zip (L.bind entry)).lookup column

/-- The entry a statement returns that lists these columns of a row. -/
def read (columns : List String) (row : String → Option Value) : Option (Cache τ) :=
  (columns.mapM row).bind L.fromTuple

end Layout

namespace Lru

def layout : Layout LruCols where
  created := ["key", "size", "download_time", "hash", "sequence"]
  inserted := ["key", "size", "download_time", "hash", "sequence"]
  returned := ["key", "size", "download_time", "hash", "sequence"]
  bind entry := [.text (bindText entry.key), .integer (bindUInt64 entry.size),
    .integer (bindUInt64 entry.downloadTime), .blob (bindBlob entry.hash),
    .integer entry.fields.sequence]
  fromTuple
    | [.text key, .integer size, .integer downloadTime, .blob hash, .integer sequence] =>
      some ⟨columnText key, columnUInt64 size, columnUInt64 downloadTime, columnBlob hash,
        ⟨sequence⟩⟩
    | _ => none

/-- Both statements return the row that was stored. -/
theorem layout_read (entry : Cache) :
    layout.read layout.created (layout.stored entry) = some (policy.getRow (policy.bindRow entry))
      ∧ layout.read layout.returned (layout.stored entry)
        = some (policy.getRow (policy.bindRow entry)) := by
  simp [Layout.read, Layout.stored, layout, List.lookup, Policy.getRow, Policy.bindRow, policy]

end Lru

namespace Lfuda

def layout : Layout Tfe where
  created := ["key", "size", "download_time", "hash", "timestamp", "freq", "eff"]
  inserted := ["key", "size", "download_time", "hash", "timestamp", "freq", "eff"]
  returned := ["key", "size", "download_time", "hash", "timestamp", "freq", "eff"]
  bind entry := [.text (bindText entry.key), .integer (bindUInt64 entry.size),
    .integer (bindUInt64 entry.downloadTime), .blob (bindBlob entry.hash),
    .integer (bindUInt64 entry.fields.timestamp), .integer (bindUInt64 entry.fields.freq),
    .integer (bindUInt64 entry.fields.eff)]
  fromTuple
    | [.text key, .integer size, .integer downloadTime, .blob hash, .integer timestamp,
        .integer freq, .integer eff] =>
      some ⟨columnText key, columnUInt64 size, columnUInt64 downloadTime, columnBlob hash,
        ⟨columnUInt64 timestamp, columnUInt64 freq, columnUInt64 eff⟩⟩
    | _ => none

theorem layout_read (R : Resolver) (entry : Cache) :
    layout.read layout.created (layout.stored entry)
        = some ((policy R).getRow ((policy R).bindRow entry))
      ∧ layout.read layout.returned (layout.stored entry)
        = some ((policy R).getRow ((policy R).bindRow entry)) := by
  simp [Layout.read, Layout.stored, layout, List.lookup, Policy.getRow, Policy.bindRow, policy,
    columnTfe, bindTfe]

end Lfuda

end XCache
