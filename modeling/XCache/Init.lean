import XCache.Invariant
import XCache.Proofs.Backends

/-!
# What `init` does

`init` loads the meta record, makes its spot checks and, if the loaded `cache_size` is over the
loaded `max_size`, evicts. `InitEffect` says everything it can do, for any database: `Check` is
what the two classes ask of the loaded record and the table.
-/

namespace XCache

variable {κ τ ε : Type} [Columns κ]

namespace Policy

variable (P : Policy κ τ ε)

/-- The meta record `query_meta` returns. -/
def loaded (w : World κ τ ε) : Meta ε := (w.metaRow.map P.columnMeta).getD P.noMeta

/-- The object after the first line of `init`. -/
def load (w : World κ τ ε) : World κ τ ε := { w.tick 1 with metaMem := P.loaded w }

/-- `init`, by the way out it takes. -/
inductive InitEffect (Check : Meta ε → Table κ → Prop) (w : World κ τ ε) :
    Except Error Unit → World κ τ ε → Prop
  | unread : w.clock ∈ w.fails →
    InitEffect Check w (.error (.sqlite .failed)) (w.tick 1)
  | noMaxSize : w.clock ∉ w.fails → (P.loaded w).maxSize = 0 →
    InitEffect Check w (.error (.algo .initMaxSize)) (P.load w)
  | unchecked : w.clock ∉ w.fails → w.clock + 1 ∈ w.fails → (P.loaded w).maxSize ≠ 0 →
    InitEffect Check w (.error (.sqlite .failed)) ((P.load w).tick 1)
  | rejected (e : AlgoError) : w.clock ∉ w.fails → w.clock + 1 ∉ w.fails → e.IsInitCheck →
    ¬ Check (P.loaded w) w.table →
    InitEffect Check w (.error (.algo e)) ((P.load w).tick 1)
  | done : w.clock ∉ w.fails → w.clock + 1 ∉ w.fails → (P.loaded w).maxSize ≠ 0 →
    Check (P.loaded w) w.table → (P.loaded w).cacheSize ≤ (P.loaded w).maxSize →
    InitEffect Check w (.ok ()) ((P.load w).tick 1)
  | removing (res : Except Error Bool) (w' : World κ τ ε) : w.clock ∉ w.fails →
    w.clock + 1 ∉ w.fails → (P.loaded w).maxSize ≠ 0 → Check (P.loaded w) w.table →
    (P.loaded w).cacheSize > (P.loaded w).maxSize →
    outcome (P.removeCache 0 []) ((P.load w).tick 1) = (res, w') →
    InitEffect Check w (res.map fun _ => ()) w'

end Policy

/-- What `LRU::init` asks of the loaded record: it tallies with the newest row. -/
structure Lru.Check (m : Meta Int64) (t : Lru.Table) : Prop where
  empty : (Lru.policy.getSingle (Lru.new t)).key = [] → m.cacheSize = 0
  sequence : (Lru.policy.getSingle (Lru.new t)).key ≠ [] →
    (Lru.policy.getSingle (Lru.new t)).fields.sequence = m.extra
  size : (Lru.policy.getSingle (Lru.new t)).key ≠ [] →
    (Lru.policy.getSingle (Lru.new t)).size ≤ m.cacheSize

/-- What `LFUDA::init` asks of the loaded record: it tallies with the worst row. -/
structure Lfuda.Check (R : Lfuda.Resolver) (m : Meta UInt64) (t : Lfuda.Table) : Prop where
  empty : ((Lfuda.policy R).getSingle (R.pick t)).key = [] → m.cacheSize = 0
  size : ((Lfuda.policy R).getSingle (R.pick t)).key ≠ [] →
    ((Lfuda.policy R).getSingle (R.pick t)).size ≤ m.cacheSize

end XCache
