import XCache.Algo

/-!
# What a call does to any database

`Effect` describes a call of an object whose accounting is in order. `Course` asks only that the
rows have keys: sizes, sequences, the meta record and the policy columns may be anything, and may
contradict each other. Again each constructor is one way out of the call.
-/

namespace XCache

variable {κ τ ε α : Type} [Columns κ]

namespace Policy

variable (P : Policy κ τ ε)

/-- Where `update_size` turns to the row of `key` itself: it does not grow, or room has been made
and the row is still there. -/
def Roomed (w : World κ τ ε) (key : Bytes) (size newSize : UInt64) (v : World κ τ ε) : Prop :=
  newSize > size ∧ (∃ D, P.Clears (newSize - size) w D ∧ key ∉ D.map Row.key ∧ v = P.cleared w D)
    ∨ ¬ newSize > size ∧ v = w

/-- `update_size` of the row of `key`, whose size is `size`, by the way out it takes. -/
inductive SizeCourse (w : World κ τ ε) (key : Bytes) (size newSize : UInt64) :
    Except Error Unit → World κ τ ε → Prop
  | same : newSize = size → SizeCourse w key size newSize (.ok ()) w
  | removal (e : Error) (w' : World κ τ ε) : newSize > size →
    P.RemoveCourse w (newSize - size) key (.error e) w' →
    SizeCourse w key size newSize (.error e) w'
  | aborted (D : List (Row κ)) : newSize > size → P.Clears (newSize - size) w D →
    key ∈ D.map Row.key → SizeCourse w key size newSize (.ok ()) (P.cleared w D)
  | mismatch (v : World κ τ ε) : newSize ≠ size → P.Roomed w key size newSize v →
    v.metaMem.cacheSize < size →
    SizeCourse w key size newSize (.error (.algo .cacheSizeMismatch)) v
  | contentFailed (v : World κ τ ε) : newSize ≠ size → P.Roomed w key size newSize v →
    size ≤ v.metaMem.cacheSize → v.clock ∈ v.fails →
    SizeCourse w key size newSize (.error (.sqlite .failed))
      ((Algo.recount v size newSize).tick 1)
  | resized (v : World κ τ ε) (t : Table κ) : newSize ≠ size → P.Roomed w key size newSize v →
    size ≤ v.metaMem.cacheSize → v.clock ∉ v.fails →
    v.table.update key (Policy.setSize newSize) = some t →
    SizeCourse w key size newSize (.ok ())
      { (Algo.recount v size newSize).tick 1 with table := t }

end Policy

namespace Algo

variable (A : Algo κ τ ε α)

inductive Course (w : World κ τ ε) : Op τ α → Except Error (Ret τ) → World κ τ ε → Prop
  | rejected (op : Op τ α) (e : AlgoError) : A.Rejects w op e →
    Course w op (.error (.algo e)) w
  | failed (op : Op τ α) (n : ℕ) : n < A.lead op → w.clock + n ∈ w.fails →
    Course w op (.error (.sqlite .failed)) (w.tick (n + 1))
  | putRemoval (c : Cache τ) (e : Error) (w' : World κ τ ε) : Accepts w c.key c.size →
    bindText c.key ∉ w.table.keys → A.RemoveCourse (w.tick 1) c.size [] (.error e) w' →
    Course w (.put c) (.error e) w'
  | putInsertFailed (c : Cache τ) (D : List (Row κ)) : Accepts w c.key c.size →
    bindText c.key ∉ w.table.keys → A.Clears c.size (w.tick 1) D →
    (A.cleared (w.tick 1) D).clock ∈ (A.cleared (w.tick 1) D).fails →
    Course w (.put c) (.error (.sqlite .failed)) ((A.cleared (w.tick 1) D).tick 1)
  | putConflict (c : Cache τ) (D : List (Row κ)) : Accepts w c.key c.size →
    bindText c.key ∉ w.table.keys → A.Clears c.size (w.tick 1) D →
    (A.cleared (w.tick 1) D).table.insert
      (A.newRow (A.cleared (w.tick 1) D).metaMem.extra c) = none →
    Course w (.put c) (.error (.sqlite .constraint)) ((A.cleared (w.tick 1) D).tick 1)
  | put (c : Cache τ) (D : List (Row κ)) (t : Table κ) : Accepts w c.key c.size →
    bindText c.key ∉ w.table.keys → A.Clears c.size (w.tick 1) D →
    (A.cleared (w.tick 1) D).table.insert
      (A.newRow (A.cleared (w.tick 1) D).metaMem.extra c) = some t →
    Course w (.put c) (.ok (.bool true)) (A.insertWorld (A.cleared (w.tick 1) D) t c.size)
  | putRenewConflict (c : Cache τ) : Accepts w c.key c.size → bindText c.key ∈ w.table.keys →
    w.table.update (bindText c.key) (touchRow A.touch w.metaMem.extra (A.arg c)) = none →
    Course w (.put c) (.error (.sqlite .constraint)) (w.tick (1 + A.cost))
  | putRenewed (c : Cache τ) (r : Row κ) (t : Table κ) : Accepts w c.key c.size →
    r ∈ w.table.rows → r.key = bindText c.key → c.size ≤ columnUInt64 r.size →
    w.table.update (bindText c.key) (touchRow A.touch w.metaMem.extra (A.arg c)) = some t →
    Course w (.put c) (.ok (.bool false)) (A.renewWorld (w.tick 1) t)
  | putGrown (c : Cache τ) (r : Row κ) (t : Table κ) (res : Except Error Unit)
      (w' : World κ τ ε) : Accepts w c.key c.size →
    r ∈ w.table.rows → r.key = bindText c.key → c.size > columnUInt64 r.size →
    w.table.update (bindText c.key) (touchRow A.touch w.metaMem.extra (A.arg c)) = some t →
    A.SizeCourse (A.renewWorld (w.tick 1) t) r.key (columnUInt64 r.size) c.size res w' →
    Course w (.put c) (res.map fun _ => .bool false) w'
  | renewMissing (k : Bytes) (a : α) : k ≠ [] → bindText k ∉ w.table.keys →
    Course w (.renew k a) (.ok (.bool false)) (w.tick 1)
  | renewConflict (k : Bytes) (a : α) : k ≠ [] → bindText k ∈ w.table.keys →
    w.table.update (bindText k) (touchRow A.touch w.metaMem.extra a) = none →
    Course w (.renew k a) (.error (.sqlite .constraint)) (w.tick A.cost)
  | renewed (k : Bytes) (a : α) (t : Table κ) : k ≠ [] → bindText k ∈ w.table.keys →
    w.table.update (bindText k) (touchRow A.touch w.metaMem.extra a) = some t →
    Course w (.renew k a) (.ok (.bool true)) (A.renewWorld w t)
  | updateMissing (k : Bytes) (n : UInt64) : Accepts w k n → bindText k ∉ w.table.keys →
    Course w (.update k n) (.ok (.bool false)) (w.tick 1)
  | updated (k : Bytes) (n : UInt64) (r : Row κ) (res : Except Error Unit) (w' : World κ τ ε) :
    Accepts w k n → r ∈ w.table.rows → r.key = bindText k →
    A.SizeCourse (w.tick 1) r.key (columnUInt64 r.size) n res w' →
    Course w (.update k n) (res.map fun _ => .bool true) w'
  | resize (n : UInt64) (w₁ : World κ τ ε) (res : Except Error Bool) (w' : World κ τ ε) : n ≠ 0 →
    w₁ = { w with metaMem := { w.metaMem with maxSize := n } } →
    A.RemoveCourse w₁ 0 [] res w' →
    Course w (.resize n) (res.map fun _ => .unit) w'
  | query (k : Bytes) : k ≠ [] →
    Course w (.query k) (.ok (.entry (A.getSingle (w.table.find (bindText k))))) (w.tick 1)
  | backup : Course w .backup (.ok .unit)
      { w.tick 1 with metaRow := w.metaRow.map fun _ => A.bindMeta w.metaMem }

end Algo

end XCache
