import XCache.SqliteCache

/-!
# Evictions, seen from outside

The rows of a table in the order the policy would evict them (`order`), the prefix of them that
`remove_cache` evicts for a given need (`dropped`), and what evicting some of them does to a world.
`Sound` is the accounting a cache keeps: the meta record's `cache_size` is the sum of the sizes.
`RemoveCourse` asks for no accounting: it is what `remove_cache` can do to any database.
-/

namespace XCache

variable {κ τ ε : Type} [Columns κ]

/-- The size of a row, as the program reads it. -/
def Row.bytes (r : Row κ) : ℕ := (columnUInt64 r.size).toNat

/-- The sum of the sizes of a table's rows. -/
def Table.total (t : Table κ) : ℕ := (t.rows.map Row.bytes).sum

/-- `n` statements have run. -/
def World.tick (w : World κ τ ε) (n : ℕ) : World κ τ ε := { w with clock := w.clock + n }

/-- The same object, with other statements to fail. -/
def World.faulty (w : World κ τ ε) (fails : List ℕ) : World κ τ ε := { w with fails := fails }

/-- `if(removed.size())remove_callback(removed);` -/
def World.deliver (w : World κ τ ε) (removed : List (Cache τ)) : World κ τ ε :=
  if removed = [] then w else { w with delivered := w.delivered ++ [removed] }

/-- The key reaches SQLite as it is and comes back as it is (`KeyExact.bound`). Its length is passed
on as an `int`, which from `2 ^ 32` bytes on is another length. -/
structure KeyExact (key : Bytes) : Prop where
  nulFree : 0 ∉ key
  short : key.length < 2 ^ 32

instance (key : Bytes) : Decidable (KeyExact key) :=
  decidable_of_iff (0 ∉ key ∧ key.length < 2 ^ 32) ⟨fun h => ⟨h.1, h.2⟩, fun h => ⟨h.1, h.2⟩⟩

/-- Every key comes back as it is, and is not taken for the key of a row that is not there. -/
structure Table.Keyed (t : Table κ) : Prop where
  exact : ∀ r ∈ t.rows, KeyExact r.key
  nonempty : ∀ r ∈ t.rows, r.key ≠ []

/-- Every row could have been put by a call, whatever its policy columns. -/
structure Table.Plain (t : Table κ) : Prop where
  exact : ∀ r ∈ t.rows, KeyExact r.key
  nonempty : ∀ r ∈ t.rows, r.key ≠ []
  pos : ∀ r ∈ t.rows, 0 < r.bytes

/-- The accounting: `cache_size` is the sum of the sizes of the rows. -/
structure Sound (w : World κ τ ε) : Prop where
  plain : w.table.Plain
  total : w.table.total = w.metaMem.cacheSize.toNat
  limit : w.metaMem.maxSize ≠ 0

namespace Policy

variable (P : Policy κ τ ε)

/-- The first `n` rows to be evicted. -/
def victims : ℕ → Table κ → List (Row κ)
  | 0, _ => []
  | n + 1, t =>
    match P.worst t with
    | some r => r :: victims n (t.delete r.key)
    | none => []

/-- All rows, in the order they would be evicted. -/
def order (t : Table κ) : List (Row κ) := P.victims t.rows.length t

/-- The rows dropped from the front of a list until what `held` counts leaves room for `need`. -/
def shed (limit need : UInt64) : UInt64 → List (Row κ) → List (Row κ)
  | _, [] => []
  | held, r :: rs =>
    if held + need > limit then r :: shed limit need (held - columnUInt64 r.size) rs else []

/-- The rows `remove_cache` evicts to make room for `need`. -/
def dropped (w : World κ τ ε) (need : UInt64) : List (Row κ) :=
  shed w.metaMem.maxSize need w.metaMem.cacheSize (P.order w.table)

/-- One iteration of the loop of `remove_cache`. -/
def evictOne (w : World κ τ ε) (r : Row κ) : World κ τ ε :=
  { w with
    table := w.table.delete r.key
    metaMem := P.discount (P.getRow r) w.metaMem
    clock := w.clock + 1 }

/-- The rows of `D` evicted, not yet delivered. -/
def evict (w : World κ τ ε) (D : List (Row κ)) : World κ τ ε := D.foldl P.evictOne w

/-- What a successful `remove_cache` leaves. -/
def shrink (w : World κ τ ε) (need : UInt64) : World κ τ ε :=
  (P.evict w (P.dropped w need)).deliver ((P.dropped w need).map P.getRow)

/-! ## `remove_cache` on any database -/

/-- The loop of `remove_cache` goes on. -/
def Over (need : UInt64) (w : World κ τ ε) : Prop :=
  w.metaMem.cacheSize + need > w.metaMem.maxSize

instance (need : UInt64) (w : World κ τ ε) : Decidable (Over need w) :=
  inferInstanceAs (Decidable (_ > _))

/-- The loop of `remove_cache` evicts the rows of `D`, and may go on. -/
def Evicts (need : UInt64) : World κ τ ε → List (Row κ) → Prop
  | _, [] => True
  | w, r :: D => Over need w ∧ w.clock ∉ w.fails ∧ P.worst w.table = some r
    ∧ columnUInt64 r.size ≤ w.metaMem.cacheSize ∧ Evicts need (P.evictOne w r) D

/-- The loop of `remove_cache` evicts the rows of `D` and stops. -/
def Clears (need : UInt64) (w : World κ τ ε) (D : List (Row κ)) : Prop :=
  P.Evicts need w D ∧ ¬ Over need (P.evict w D)

/-- The rows of `D` evicted and delivered. -/
def cleared (w : World κ τ ε) (D : List (Row κ)) : World κ τ ε :=
  (P.evict w D).deliver (D.map P.getRow)

/-- `remove_cache`, by the way out it takes. -/
inductive RemoveCourse (w : World κ τ ε) (need : UInt64) (mark : Bytes) :
    Except Error Bool → World κ τ ε → Prop
  | cleared (D : List (Row κ)) : P.Clears need w D →
    RemoveCourse w need mark (.ok (D.any fun r => r.key = mark)) (P.cleared w D)
  | failed (D : List (Row κ)) : P.Evicts need w D → Over need (P.evict w D) →
    (P.evict w D).clock ∈ w.fails →
    RemoveCourse w need mark (.error (.sqlite .failed)) ((P.evict w D).tick 1)
  | noVictim (D : List (Row κ)) : P.Evicts need w D → Over need (P.evict w D) →
    P.worst (P.evict w D).table = none →
    RemoveCourse w need mark (.error (.algo .emptyVictim))
      (((P.evict w D).tick 1).deliver (D.map P.getRow))
  | mismatch (D : List (Row κ)) (r : Row κ) : P.Evicts need w D → Over need (P.evict w D) →
    P.worst (P.evict w D).table = some r →
    (P.evict w D).metaMem.cacheSize < columnUInt64 r.size →
    RemoveCourse w need mark (.error (.algo .cacheSizeMismatch))
      { (P.evict w D).tick 1 with
        table := (P.evict w D).table.delete r.key
        delivered := (P.evict w D).delivered ++ [D.map P.getRow ++ [P.getRow r]] }

end Policy

end XCache
