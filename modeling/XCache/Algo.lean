import XCache.Eviction

/-!
# A cache algorithm and the effects of its calls

`put` and `renew` differ between the two classes only in what they write to the policy's columns
and to the third meta field. An `Algo` is a `Policy` with that data; `Algo.put` is the shape both
`put`s have. `Effect` says once everything a call can do in a `Sound` world: each constructor is
one way out of the call, with the world it leaves.
-/

namespace XCache

variable {κ τ ε α : Type} [Columns κ]

/-- A renewed row. -/
def touchRow (touch : ε → α → κ → κ) (x : ε) (a : α) (r : Row κ) : Row κ :=
  { r with cols := touch x a r.cols }

/-- What `renew` of `key` can do: `touch` and `touched` are what it writes to the row's columns
and to the third meta field, `cost` the statements it takes when the key is resident. -/
inductive RenewEffect (touch : ε → α → κ → κ) (touched : ε → ε) (cost : ℕ) (w : World κ τ ε)
    (key : Bytes) (a : α) : Except Error Bool → World κ τ ε → Prop
  | nullKey : key = [] → RenewEffect touch touched cost w key a (.error (.algo .keyNull)) w
  | failed (n : ℕ) : n < cost → w.clock + n ∈ w.fails →
    RenewEffect touch touched cost w key a (.error (.sqlite .failed)) (w.tick (n + 1))
  | missing : key ≠ [] → bindText key ∉ w.table.keys →
    RenewEffect touch touched cost w key a (.ok false) (w.tick 1)
  | conflict : key ≠ [] → bindText key ∈ w.table.keys →
    w.table.update (bindText key) (touchRow touch w.metaMem.extra a) = none →
    RenewEffect touch touched cost w key a (.error (.sqlite .constraint)) (w.tick cost)
  | renewed (t : Table κ) : key ≠ [] → bindText key ∈ w.table.keys →
    w.table.update (bindText key) (touchRow touch w.metaMem.extra a) = some t →
    RenewEffect touch touched cost w key a (.ok true)
      { w.tick cost with
        table := t, metaMem := { w.metaMem with extra := touched w.metaMem.extra } }

structure Algo (κ τ ε α : Type) [Columns κ] extends Policy κ τ ε where
  /-- The policy fields `put` gives a new entry. -/
  stamp : ε → τ → τ
  /-- The third meta field after an insertion. -/
  inserted : ε → ε
  /-- What `put` hands to `renew` besides the key. -/
  arg : Cache τ → α
  renew : Bytes → α → Call κ τ ε Bool
  touch : ε → α → κ → κ
  touched : ε → ε
  /-- The greatest number an insertion computes, and a renewal, before it is cut to 64 bits. -/
  insertCount : ε → ℤ
  renewCount : ε → κ → ℤ
  cost : ℕ
  renew_effect : ∀ {w : World κ τ ε} (key : Bytes) (a : α), w.table.Plain →
    wp (renew key a) (RenewEffect touch touched cost w key a) w

namespace Algo

variable (A : Algo κ τ ε α)

/-- The shape of both `put`s. -/
def put (cache : Cache τ) : Call κ τ ε Bool := do
  throwIf (cache.key = []) (.algo A.nullKey)
  let w ← get
  throwIf (cache.size = 0 ∨ cache.size > w.metaMem.maxSize) (.algo .sizeRange)
  let entry ← A.querySingle cache.key
  if entry.key = [] then do
    let _ ← A.removeCache cache.size []
    let w ← get
    let tmp : Cache τ := { cache with fields := A.stamp w.metaMem.extra cache.fields }
    let inserted ← A.insert tmp
    throwIf (inserted = 0) (.algo .fatalLogic)
    modify fun w => { w with metaMem := { w.metaMem with
      extra := A.inserted w.metaMem.extra, cacheSize := w.metaMem.cacheSize + tmp.size } }
    return true
  else do
    let renewed ← A.renew entry.key (A.arg cache)
    throwIf (renewed = false) (.algo .fatalLogic)
    if cache.size > entry.size then do
      A.updateSize entry cache.size
      return false
    else return false

def call : Op τ α → Call κ τ ε (Ret τ)
  | .put c => Ret.bool <$> A.put c
  | .renew k a => Ret.bool <$> A.renew k a
  | .update k n => Ret.bool <$> A.update k n
  | .resize n => (fun _ => Ret.unit) <$> A.resize n
  | .query k => Ret.entry <$> A.query k
  | .backup => (fun _ => Ret.unit) <$> A.backup

/-! ## What a call does -/

/-- The world after a renewal that wrote the table `t`. -/
def renewWorld (w : World κ τ ε) (t : Table κ) : World κ τ ε :=
  { w.tick A.cost with
    table := t, metaMem := { w.metaMem with extra := A.touched w.metaMem.extra } }

/-- The row `put` inserts when the third meta field is `x`. -/
def newRow (x : ε) (c : Cache τ) : Row κ := A.bindRow { c with fields := A.stamp x c.fields }

/-- The world after an insertion that wrote the table `t`. -/
def insertWorld (w : World κ τ ε) (t : Table κ) (size : UInt64) : World κ τ ε :=
  { w.tick 1 with
    table := t
    metaMem := { w.metaMem with
      extra := A.inserted w.metaMem.extra, cacheSize := w.metaMem.cacheSize + size } }

/-- The world in which `update_size` turns to the row itself: a growing row has had room made. -/
def roomFor (w : World κ τ ε) (size newSize : UInt64) : World κ τ ε :=
  if newSize > size then A.shrink w (newSize - size) else w

/-- The row of `key` is still there then. -/
def Survives (w : World κ τ ε) (key : Bytes) (size newSize : UInt64) : Prop :=
  newSize > size → key ∉ (A.dropped w (newSize - size)).map Row.key

/-- The meta record that counts `newSize` in place of `size`. -/
def recount (w : World κ τ ε) (size newSize : UInt64) : World κ τ ε :=
  { w with metaMem := { w.metaMem with cacheSize := w.metaMem.cacheSize - size + newSize } }

/-- What `update_size` can do with the row of `key`, whose size is `size`. -/
inductive SizeEffect (w : World κ τ ε) (key : Bytes) (size newSize : UInt64) :
    Except Error Unit → World κ τ ε → Prop
  | same : newSize = size → SizeEffect w key size newSize (.ok ()) w
  | evictFailed (D : List (Row κ)) : newSize > size → D <+: A.dropped w (newSize - size) →
    D ≠ A.dropped w (newSize - size) → w.clock + D.length ∈ w.fails →
    SizeEffect w key size newSize (.error (.sqlite .failed)) ((A.evict w D).tick 1)
  | aborted : newSize > size → key ∈ (A.dropped w (newSize - size)).map Row.key →
    SizeEffect w key size newSize (.ok ()) (A.shrink w (newSize - size))
  | contentFailed : newSize ≠ size → A.Survives w key size newSize →
    (A.roomFor w size newSize).clock ∈ w.fails →
    SizeEffect w key size newSize (.error (.sqlite .failed))
      ((recount (A.roomFor w size newSize) size newSize).tick 1)
  | resized (t : Table κ) : newSize ≠ size → A.Survives w key size newSize →
    (A.roomFor w size newSize).clock ∉ w.fails →
    (A.roomFor w size newSize).table.update key (Policy.setSize newSize) = some t →
    SizeEffect w key size newSize (.ok ())
      { (recount (A.roomFor w size newSize) size newSize).tick 1 with table := t }

/-- The argument checks. -/
def Rejects (w : World κ τ ε) : Op τ α → AlgoError → Prop
  | .put c, e => c.key = [] ∧ e = A.nullKey
      ∨ c.key ≠ [] ∧ (c.size = 0 ∨ c.size > w.metaMem.maxSize) ∧ e = .sizeRange
  | .renew k _, e => k = [] ∧ e = .keyNull
  | .update k n, e => k = [] ∧ e = A.nullKey
      ∨ k ≠ [] ∧ (n = 0 ∨ n > w.metaMem.maxSize) ∧ e = .sizeRange
  | .resize n, e => n = 0 ∧ e = .maxSizeZero
  | .query k, e => k = [] ∧ e = .keyNull
  | .backup, _ => False

/-- The statements of a call before the first that can change a size. -/
def lead : Op τ α → ℕ
  | .put _ => 1 + A.cost
  | .renew _ _ => A.cost
  | .update _ _ => 1
  | .resize _ => 0
  | .query _ => 1
  | .backup => 1

/-- The arguments of a `put` or `update` pass the checks. -/
def Accepts (w : World κ τ ε) (key : Bytes) (size : UInt64) : Prop :=
  key ≠ [] ∧ size ≠ 0 ∧ size ≤ w.metaMem.maxSize

inductive Effect (w : World κ τ ε) : Op τ α → Except Error (Ret τ) → World κ τ ε → Prop
  | rejected (op : Op τ α) (e : AlgoError) : A.Rejects w op e →
    Effect w op (.error (.algo e)) w
  | failed (op : Op τ α) (n : ℕ) : n < A.lead op → w.clock + n ∈ w.fails →
    Effect w op (.error (.sqlite .failed)) (w.tick (n + 1))
  | putEvictFailed (c : Cache τ) (D : List (Row κ)) : Accepts w c.key c.size →
    bindText c.key ∉ w.table.keys → D <+: A.dropped w c.size → D ≠ A.dropped w c.size →
    w.clock + 1 + D.length ∈ w.fails →
    Effect w (.put c) (.error (.sqlite .failed)) ((A.evict (w.tick 1) D).tick 1)
  | putInsertFailed (c : Cache τ) : Accepts w c.key c.size → bindText c.key ∉ w.table.keys →
    (A.shrink (w.tick 1) c.size).clock ∈ w.fails →
    Effect w (.put c) (.error (.sqlite .failed)) ((A.shrink (w.tick 1) c.size).tick 1)
  | putConflict (c : Cache τ) : Accepts w c.key c.size → bindText c.key ∉ w.table.keys →
    (A.shrink (w.tick 1) c.size).table.insert
      (A.newRow (A.shrink (w.tick 1) c.size).metaMem.extra c) = none →
    Effect w (.put c) (.error (.sqlite .constraint)) ((A.shrink (w.tick 1) c.size).tick 1)
  | put (c : Cache τ) (t : Table κ) : Accepts w c.key c.size → bindText c.key ∉ w.table.keys →
    (A.shrink (w.tick 1) c.size).table.insert
      (A.newRow (A.shrink (w.tick 1) c.size).metaMem.extra c) = some t →
    Effect w (.put c) (.ok (.bool true)) (A.insertWorld (A.shrink (w.tick 1) c.size) t c.size)
  | putRenewConflict (c : Cache τ) : Accepts w c.key c.size → bindText c.key ∈ w.table.keys →
    w.table.update (bindText c.key) (touchRow A.touch w.metaMem.extra (A.arg c)) = none →
    Effect w (.put c) (.error (.sqlite .constraint)) (w.tick (1 + A.cost))
  | putRenewed (c : Cache τ) (r : Row κ) (t : Table κ) : Accepts w c.key c.size →
    r ∈ w.table.rows → r.key = bindText c.key → c.size ≤ columnUInt64 r.size →
    w.table.update (bindText c.key) (touchRow A.touch w.metaMem.extra (A.arg c)) = some t →
    Effect w (.put c) (.ok (.bool false)) (A.renewWorld (w.tick 1) t)
  | putGrown (c : Cache τ) (r : Row κ) (t : Table κ) (res : Except Error Unit)
      (w' : World κ τ ε) : Accepts w c.key c.size →
    r ∈ w.table.rows → r.key = bindText c.key → c.size > columnUInt64 r.size →
    w.table.update (bindText c.key) (touchRow A.touch w.metaMem.extra (A.arg c)) = some t →
    A.SizeEffect (A.renewWorld (w.tick 1) t) r.key (columnUInt64 r.size) c.size res w' →
    Effect w (.put c) (res.map fun _ => .bool false) w'
  | renewMissing (k : Bytes) (a : α) : k ≠ [] → bindText k ∉ w.table.keys →
    Effect w (.renew k a) (.ok (.bool false)) (w.tick 1)
  | renewConflict (k : Bytes) (a : α) : k ≠ [] → bindText k ∈ w.table.keys →
    w.table.update (bindText k) (touchRow A.touch w.metaMem.extra a) = none →
    Effect w (.renew k a) (.error (.sqlite .constraint)) (w.tick A.cost)
  | renewed (k : Bytes) (a : α) (t : Table κ) : k ≠ [] → bindText k ∈ w.table.keys →
    w.table.update (bindText k) (touchRow A.touch w.metaMem.extra a) = some t →
    Effect w (.renew k a) (.ok (.bool true)) (A.renewWorld w t)
  | updateMissing (k : Bytes) (n : UInt64) : Accepts w k n → bindText k ∉ w.table.keys →
    Effect w (.update k n) (.ok (.bool false)) (w.tick 1)
  | updated (k : Bytes) (n : UInt64) (r : Row κ) (res : Except Error Unit) (w' : World κ τ ε) :
    Accepts w k n → r ∈ w.table.rows → r.key = bindText k →
    A.SizeEffect (w.tick 1) r.key (columnUInt64 r.size) n res w' →
    Effect w (.update k n) (res.map fun _ => .bool true) w'
  | resizeFailed (n : UInt64) (D : List (Row κ)) (w₁ : World κ τ ε) : n ≠ 0 →
    w₁ = { w with metaMem := { w.metaMem with maxSize := n } } →
    D <+: A.dropped w₁ 0 → D ≠ A.dropped w₁ 0 → w.clock + D.length ∈ w.fails →
    Effect w (.resize n) (.error (.sqlite .failed)) ((A.evict w₁ D).tick 1)
  | resize (n : UInt64) (w₁ : World κ τ ε) : n ≠ 0 →
    w₁ = { w with metaMem := { w.metaMem with maxSize := n } } →
    Effect w (.resize n) (.ok .unit) (A.shrink w₁ 0)
  | query (k : Bytes) : k ≠ [] →
    Effect w (.query k) (.ok (.entry (A.getSingle (w.table.find (bindText k))))) (w.tick 1)
  | backup : Effect w .backup (.ok .unit)
      { w.tick 1 with metaRow := w.metaRow.map fun _ => A.bindMeta w.metaMem }

end Algo

end XCache
