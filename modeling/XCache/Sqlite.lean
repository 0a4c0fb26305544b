import Mathlib

/-!
# The SQLite layer

`sqlite_base.{h,cpp}` and the tables of `sql_statement.h`. Values go to SQLite through `bind_value`
and come back through `get_column_value`: a `size_t` or `uint64_t` is stored as the signed integer
of the same bits, a text is bound with its length cast to `int` and read back as a C string.

`cacheLRU` and `cacheLFUDA` agree in their first four columns and differ in the rest (`cols`). A
`Table` carries its `PRIMARY KEY` and `UNIQUE` constraints: a statement that would break them has
no effect and fails.
-/

namespace XCache

/-- The bytes of a `std::string` or of a `std::vector<char>`. -/
abbrev Bytes := List UInt8

/-! ## Binding and reading values -/

/-- `static_cast<int>` of a size. -/
def castInt (n : ℕ) : ℤ := (n : ℤ).bmod (2 ^ 32)

/-- `bind_value` of a `std::string`: SQLite takes the given number of bytes, or everything before
the first NUL when that number is negative. -/
def bindText (value : Bytes) : Bytes :=
  if castInt value.length < 0 then value.takeWhile (· ≠ 0)
  else value.take (castInt value.length).toNat

/-- `bind_value` of a `std::vector<char>`. -/
def bindBlob (value : Bytes) : Bytes := value.take (castInt value.length).toNat

/-- `bind_value` of a `uint64_t` or `size_t`. -/
def bindUInt64 (value : UInt64) : Int64 := value.toInt64

/-- `get_column_value` of a `std::string`, built from a C string. -/
def columnText (text : Bytes) : Bytes := text.takeWhile (· ≠ 0)

/-- `get_column_value` of a `std::vector<char>`: a null blob is the empty vector. -/
def columnBlob (blob : Bytes) : Bytes := blob

/-- `get_column_value` of a `uint64_t` or `size_t`. -/
def columnUInt64 (n : Int64) : UInt64 := n.toUInt64

/-! ## Rows and tables -/

/-- A row of `cacheLRU` or `cacheLFUDA`, as SQLite stores it. -/
@[ext] structure Row (κ : Type) where
  key : Bytes
  size : Int64
  downloadTime : Int64
  hash : Bytes
  cols : κ
  deriving DecidableEq

/-- `CacheLRU` or `CacheLFUDA`: a row as the program holds it. -/
@[ext] structure Cache (τ : Type) where
  key : Bytes
  size : UInt64
  downloadTime : UInt64
  hash : Bytes
  fields : τ
  deriving DecidableEq

/-- When the columns of two rows break a `UNIQUE` constraint. -/
class Columns (κ : Type) where
  Clash : κ → κ → Prop
  decClash : DecidableRel Clash

instance {κ : Type} [Columns κ] : DecidableRel (@Columns.Clash κ _) := Columns.decClash

variable {κ : Type} [Columns κ]

/-- Two rows a table may hold together. -/
def Row.Distinct (a b : Row κ) : Prop := a.key ≠ b.key ∧ ¬ Columns.Clash a.cols b.cols

instance : DecidableRel (@Row.Distinct κ _) := fun _ _ => inferInstanceAs (Decidable (_ ∧ _))

/-- A cache table, in the order its rows were inserted. -/
@[ext] structure Table (κ : Type) [Columns κ] where
  rows : List (Row κ)
  unique : rows.Pairwise Row.Distinct

namespace Table

/-- Both `CREATE TABLE` statements leave the table empty. -/
def empty : Table κ := ⟨[], List.Pairwise.nil⟩

def keys (t : Table κ) : List Bytes := t.rows.map Row.key

/-- A statement takes effect if its rows satisfy the constraints. -/
def commit (rows : List (Row κ)) : Option (Table κ) :=
  if h : rows.Pairwise Row.Distinct then some ⟨rows, h⟩ else none

/-- `INSERT INTO … VALUES (…)`. -/
def insert (t : Table κ) (row : Row κ) : Option (Table κ) := commit (t.rows ++ [row])

/-- `UPDATE … SET … WHERE key = ?`. -/
def update (t : Table κ) (key : Bytes) (f : Row κ → Row κ) : Option (Table κ) :=
  commit (t.rows.map fun r => if r.key = key then f r else r)

/-- `DELETE FROM … WHERE key = ?`. -/
def delete (t : Table κ) (key : Bytes) : Table κ :=
  ⟨t.rows.filter fun r => r.key ≠ key, t.unique.filter _⟩

/-- `SELECT * FROM … WHERE key = ?`, of which the primary key leaves at most one row. -/
def find (t : Table κ) (key : Bytes) : Option (Row κ) := t.rows.find? fun r => r.key = key

/-- The rows `WHERE key = ?` selects. -/
def count (t : Table κ) (key : Bytes) : ℕ := t.rows.countP fun r => r.key = key

end Table

/-- The row of `metaLRU` or `metaLFUDA`: `extra` is `max_sequence` or `global_aging`. -/
structure MetaRow where
  cacheSize : Int64
  maxSize : Int64
  extra : Int64
  deriving DecidableEq

/-- `MetaLRU` or `MetaLFUDA`: `extra` is `sequence` or `global_aging`. -/
@[ext] structure Meta (ε : Type) where
  cacheSize : UInt64
  maxSize : UInt64
  extra : ε
  deriving DecidableEq

end XCache
