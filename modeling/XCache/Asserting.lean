import XCache.Invariant
import XCache.Proofs.Backends

/-!
# The calls with assertions

The program text of `SqliteCache` and of `Algo.put`, with an assertion before every subtraction
from `cache_size` and before every statement that writes a sequence. An assertion that fails throws
`unfinished`, as a loop does that has used up its iterations: a call that does not end in
`unfinished` and does what the call without assertions does has kept its numbers in range.
-/

namespace XCache

variable {κ τ ε α : Type} [Columns κ]

/-- `assert(c)`. -/
def assertion (c : World κ τ ε → Prop) [DecidablePred c] : Call κ τ ε Unit := do
  let w ← get
  throwIf (¬ c w) .unfinished

namespace Policy

variable (P : Policy κ τ ε)

def removeLoopAsserting (required : UInt64) (mark : Bytes) :
    ℕ → List (Cache τ) → Bool → Call κ τ ε Bool
  | 0, _, _ => throw .unfinished
  | fuel + 1, removed, flag => do
    let w ← get
    if w.metaMem.cacheSize + required > w.metaMem.maxSize then do
      let entry ← P.deleteOld
      if entry.key = [] then do
        report removed
        throw (.algo .emptyVictim)
      else if w.metaMem.cacheSize ≥ entry.size then do
        assertion fun w => entry.size ≤ w.metaMem.cacheSize
        modify fun w => { w with metaMem := P.discount entry w.metaMem }
        removeLoopAsserting required mark fuel (removed ++ [entry])
          (flag || decide (entry.key = mark))
      else do
        removeCallback (removed ++ [entry])
        throw (.algo .cacheSizeMismatch)
    else do
      report removed
      return flag

def removeCacheAsserting (required : UInt64) (mark : Bytes) : Call κ τ ε Bool := do
  let w ← get
  if w.metaMem.cacheSize + required ≤ w.metaMem.maxSize then return false
  else P.removeLoopAsserting required mark (w.table.rows.length + 1) [] false

def updateSizeAsserting (cache : Cache τ) (newSize : UInt64) : Call κ τ ε Unit :=
  if newSize = cache.size then pure ()
  else do
    let aborted ← (if newSize > cache.size then
      P.removeCacheAsserting (newSize - cache.size) cache.key else pure false)
    if aborted then pure ()
    else do
      let w ← get
      throwIf (¬ w.metaMem.cacheSize ≥ cache.size) (.algo .cacheSizeMismatch)
      assertion fun w => cache.size ≤ w.metaMem.cacheSize
      modify fun w => { w with metaMem := { w.metaMem with
        cacheSize := w.metaMem.cacheSize - cache.size + newSize } }
      let changed ← updateContent cache.key newSize
      throwIf (changed = 0) (.algo .fatalLogic)

def updateAsserting (key : Bytes) (newSize : UInt64) : Call κ τ ε Bool := do
  throwIf (key = []) (.algo P.nullKey)
  let w ← get
  throwIf (newSize = 0 ∨ newSize > w.metaMem.maxSize) (.algo .sizeRange)
  let entry ← P.querySingle key
  if entry.key ≠ [] then do
    P.updateSizeAsserting entry newSize
    return true
  else return false

def resizeAsserting (newSize : UInt64) : Call κ τ ε Unit := do
  throwIf (newSize = 0) (.algo .maxSizeZero)
  modify fun w => { w with metaMem := { w.metaMem with maxSize := newSize } }
  let _ ← P.removeCacheAsserting 0 []

end Policy

namespace Algo

variable (A : Algo κ τ ε α)

/-- What a class asserts besides: of the world in which `put` inserts, and inside `renew`. -/
structure Asserts where
  fresh : World κ τ ε → Prop
  decFresh : DecidablePred fresh
  renew : Bytes → α → Call κ τ ε Bool

variable (S : Asserts (κ := κ) (τ := τ) (ε := ε) (α := α))

instance : DecidablePred S.fresh := S.decFresh

def putAsserting (cache : Cache τ) : Call κ τ ε Bool := do
  throwIf (cache.key = []) (.algo A.nullKey)
  let w ← get
  throwIf (cache.size = 0 ∨ cache.size > w.metaMem.maxSize) (.algo .sizeRange)
  let entry ← A.querySingle cache.key
  if entry.key = [] then do
    let _ ← A.removeCacheAsserting cache.size []
    let w ← get
    let tmp : Cache τ := { cache with fields := A.stamp w.metaMem.extra cache.fields }
    assertion S.fresh
    let inserted ← A.insert tmp
    throwIf (inserted = 0) (.algo .fatalLogic)
    modify fun w => { w with metaMem := { w.metaMem with
      extra := A.inserted w.metaMem.extra, cacheSize := w.metaMem.cacheSize + tmp.size } }
    return true
  else do
    let renewed ← S.renew entry.key (A.arg cache)
    throwIf (renewed = false) (.algo .fatalLogic)
    if cache.size > entry.size then do
      A.updateSizeAsserting entry cache.size
      return false
    else return false

def callAsserting : Op τ α → Call κ τ ε (Ret τ)
  | .put c => Ret.bool <$> A.putAsserting S c
  | .renew k a => Ret.bool <$> S.renew k a
  | .update k n => Ret.bool <$> A.updateAsserting k n
  | .resize n => (fun _ => Ret.unit) <$> A.resizeAsserting n
  | .query k => Ret.entry <$> A.query k
  | .backup => (fun _ => Ret.unit) <$> A.backup

/-- No counter overflows: `ok` is what is asked of the third meta field wherever a call counts it
on. -/
def Counts (ok : ε → Prop) (w : World κ τ ε) : Op τ α → Prop
  | .put c => Accepts w c.key c.size →
      let entry := A.getSingle (w.table.find (bindText c.key))
      (entry.key ≠ [] → ok w.metaMem.extra)
        ∧ (entry.key = [] → (outcome (A.removeCache c.size []) (w.tick 1)).1.isOk →
          ok (outcome (A.removeCache c.size []) (w.tick 1)).2.metaMem.extra)
  | .renew k _ => k ≠ [] → ok w.metaMem.extra
  | .update _ _ => True
  | .resize _ => True
  | .query _ => True
  | .backup => True

instance (ok : ε → Prop) [DecidablePred ok] (w : World κ τ ε) :
    (op : Op τ α) → Decidable (A.Counts ok w op)
  | .put _ => inferInstanceAs (Decidable (_ → (_ → _) ∧ (_ → _ → _)))
  | .renew _ _ => inferInstanceAs (Decidable (_ → _))
  | .update _ _ => inferInstanceAs (Decidable True)
  | .resize _ => inferInstanceAs (Decidable True)
  | .query _ => inferInstanceAs (Decidable True)
  | .backup => inferInstanceAs (Decidable True)

end Algo

/-! ## The two classes -/

namespace Lru

/-- The next sequence is greater than all sequences in the table. -/
def Fresh (w : World) : Prop := ∀ r ∈ w.table.rows, seq r < (w.metaMem.extra + 1).toInt

instance : DecidablePred Fresh := fun w => inferInstanceAs (Decidable (∀ r ∈ w.table.rows, _))

def renewAsserting (key : Bytes) : Call Bool := do
  throwIf (key = []) (.algo .keyNull)
  let w ← get
  assertion Fresh
  let changed ← updateLruSeq key (w.metaMem.extra + 1)
  if changed ≠ 0 then do
    modify fun w => { w with metaMem := { w.metaMem with extra := w.metaMem.extra + 1 } }
    return true
  else return false

def asserts : Algo.Asserts (κ := LruCols) (τ := LruCols) (ε := Int64) (α := Unit) where
  fresh := Fresh
  decFresh := inferInstance
  renew key _ := renewAsserting key

def initAsserting : Call Unit := do
  let m ← policy.queryMeta
  modify fun w => { w with metaMem := m }
  throwIf (m.maxSize = 0) (.algo .initMaxSize)
  let entry ← queryLruNew
  throwIf (entry.key = [] ∧ m.cacheSize ≠ 0) (.algo .initEmpty)
  throwIf (entry.key ≠ [] ∧ entry.fields.sequence ≠ m.extra) (.algo .initSequence)
  throwIf (entry.key ≠ [] ∧ entry.size > m.cacheSize) (.algo .initCacheSize)
  if m.cacheSize > m.maxSize then do
    let _ ← policy.removeCacheAsserting 0 []
  else pure ()

def stepAsserting (w : World) (op : Op) : Except Error Ret × World :=
  outcome (algo.callAsserting asserts op) w

end Lru

namespace Lfuda

variable (R : Resolver)

def asserts : Algo.Asserts (κ := LfudaCols) (τ := Tfe) (ε := UInt64) (α := UInt64) where
  fresh _ := True
  decFresh _ := inferInstanceAs (Decidable True)
  renew := renew

def initAsserting : Call Unit := do
  let m ← (policy R).queryMeta
  modify fun w => { w with metaMem := m }
  throwIf (m.maxSize = 0) (.algo .initMaxSize)
  let entry ← queryLfudaWorst R
  throwIf (entry.key = [] ∧ m.cacheSize ≠ 0) (.algo .initEmpty)
  throwIf (entry.key ≠ [] ∧ entry.size > m.cacheSize) (.algo .initCacheSize)
  if m.cacheSize > m.maxSize then do
    let _ ← (policy R).removeCacheAsserting 0 []
  else pure ()

def stepAsserting (w : World) (i : Resolver × Op) : Except Error Ret × World :=
  outcome ((algo i.1).callAsserting asserts i.2) w

end Lfuda

end XCache
