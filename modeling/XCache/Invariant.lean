import XCache.Algo

/-!
# What a run keeps

`Admits` is what a run is asked: keys that reach SQLite as they are, and counters and sums that do
not overflow. `Inv` is what such a run keeps: the accounting of `Sound`, a cache that is not over
its limit, and a property `Good` of the policy's own columns and third meta field. `Keeps` says
what a policy has to show of its `Good`, one statement at a time.
-/

namespace XCache

variable {κ τ ε α : Type} [Columns κ]

/-- The key a call names, if any. -/
def Op.key : Op τ α → Bytes
  | .put c => c.key
  | .renew k _ => k
  | .update k _ => k
  | .resize _ => []
  | .query k => k
  | .backup => []

namespace Algo

variable (A : Algo κ τ ε α)

/-- No counter a call computes reaches `2 ^ 63`, and no sum of sizes `2 ^ 64`. -/
def NoOverflow (w : World κ τ ε) : Op τ α → Prop
  | .put c => Accepts w c.key c.size →
      (bindText c.key ∉ w.table.keys →
        w.metaMem.cacheSize.toNat + c.size.toNat < 2 ^ 64
          ∧ A.insertCount (A.shrink (w.tick 1) c.size).metaMem.extra < 2 ^ 63)
      ∧ ∀ r ∈ w.table.rows, r.key = bindText c.key →
        w.metaMem.cacheSize.toNat + (c.size.toNat - r.bytes) < 2 ^ 64
          ∧ A.renewCount w.metaMem.extra r.cols < 2 ^ 63
  | .renew k _ => ∀ r ∈ w.table.rows, r.key = bindText k →
      A.renewCount w.metaMem.extra r.cols < 2 ^ 63
  | .update k n => Accepts w k n → ∀ r ∈ w.table.rows, r.key = bindText k →
      w.metaMem.cacheSize.toNat + (n.toNat - r.bytes) < 2 ^ 64
  | .resize _ => True
  | .query _ => True
  | .backup => True

instance (w : World κ τ ε) (key : Bytes) (size : UInt64) : Decidable (Accepts w key size) :=
  inferInstanceAs (Decidable (_ ∧ _ ∧ _))

instance (w : World κ τ ε) : (op : Op τ α) → Decidable (A.NoOverflow w op)
  | .put _ => inferInstanceAs (Decidable (_ → _ ∧ _))
  | .renew _ _ => inferInstanceAs (Decidable (∀ r ∈ w.table.rows, _))
  | .update _ _ => inferInstanceAs (Decidable (_ → ∀ r ∈ w.table.rows, _))
  | .resize _ => inferInstanceAs (Decidable True)
  | .query _ => inferInstanceAs (Decidable True)
  | .backup => inferInstanceAs (Decidable True)

/-- The part of it that is about sums of sizes. -/
def SumsFit (w : World κ τ ε) : Op τ α → Prop
  | .put c => Accepts w c.key c.size →
      (bindText c.key ∉ w.table.keys → w.metaMem.cacheSize.toNat + c.size.toNat < 2 ^ 64)
      ∧ ∀ r ∈ w.table.rows, r.key = bindText c.key →
        w.metaMem.cacheSize.toNat + (c.size.toNat - r.bytes) < 2 ^ 64
  | .update k n => Accepts w k n → ∀ r ∈ w.table.rows, r.key = bindText k →
      w.metaMem.cacheSize.toNat + (n.toNat - r.bytes) < 2 ^ 64
  | .renew _ _ => True
  | .resize _ => True
  | .query _ => True
  | .backup => True

instance (w : World κ τ ε) : (op : Op τ α) → Decidable (SumsFit w op)
  | .put _ => inferInstanceAs (Decidable (_ → _ ∧ _))
  | .renew _ _ => inferInstanceAs (Decidable True)
  | .update _ _ => inferInstanceAs (Decidable (_ → ∀ r ∈ w.table.rows, _))
  | .resize _ => inferInstanceAs (Decidable True)
  | .query _ => inferInstanceAs (Decidable True)
  | .backup => inferInstanceAs (Decidable True)

/-- What a call of a run is asked. -/
def Admits (w : World κ τ ε) (op : Op τ α) : Prop := KeyExact op.key ∧ A.NoOverflow w op

instance (w : World κ τ ε) (op : Op τ α) : Decidable (A.Admits w op) :=
  inferInstanceAs (Decidable (_ ∧ _))

/-- Every statement of the algorithm that does not overflow keeps `Good`, and breaks no
constraint. -/
structure Keeps (Good : Table κ → ε → Prop) : Prop where
  evict : ∀ {t x r}, Good t x → A.worst t = some r →
    Good (t.delete r.key) (A.evicted (A.getRow r) x)
  insert_isSome : ∀ {t x c}, Good t x → A.insertCount x < 2 ^ 63 → bindText c.key ∉ t.keys →
    ∃ t', t.insert (A.newRow x c) = some t'
  insert : ∀ {t t' x c}, Good t x → A.insertCount x < 2 ^ 63 →
    t.insert (A.newRow x c) = some t' → Good t' (A.inserted x)
  renew_isSome : ∀ {t x a r}, Good t x → r ∈ t.rows → A.renewCount x r.cols < 2 ^ 63 →
    ∃ t', t.update r.key (touchRow A.touch x a) = some t'
  renew : ∀ {t t' x a r}, Good t x → r ∈ t.rows → A.renewCount x r.cols < 2 ^ 63 →
    t.update r.key (touchRow A.touch x a) = some t' → Good t' (A.touched x)
  setSize : ∀ {t t' x key n}, Good t x → t.update key (Policy.setSize n) = some t' → Good t' x

instance (w : World κ τ ε) (key : Bytes) (size n : UInt64) : Decidable (A.Survives w key size n) :=
  inferInstanceAs (Decidable (_ → _))

/-- `update_size` gets to the content update of a row, and that statement fails. -/
def SizeFails (w : World κ τ ε) (r : Row κ) (n : UInt64) : Prop :=
  n ≠ columnUInt64 r.size ∧ A.Survives w r.key (columnUInt64 r.size) n
    ∧ (A.roomFor w (columnUInt64 r.size) n).clock ∈ w.fails

instance (w : World κ τ ε) (r : Row κ) (n : UInt64) : Decidable (A.SizeFails w r n) :=
  inferInstanceAs (Decidable (_ ∧ _ ∧ _))

/-- The call gets to its content update, and that statement fails. -/
def ContentFails (w : World κ τ ε) : Op τ α → Prop
  | .put c => Accepts w c.key c.size ∧ ∃ r ∈ w.table.rows, r.key = bindText c.key
      ∧ columnUInt64 r.size < c.size
      ∧ ∃ t ∈ w.table.update (bindText c.key) (touchRow A.touch w.metaMem.extra (A.arg c)),
        A.SizeFails (A.renewWorld (w.tick 1) t) r c.size
  | .update k n => Accepts w k n ∧ ∃ r ∈ w.table.rows, r.key = bindText k
      ∧ A.SizeFails (w.tick 1) r n
  | .renew _ _ => False
  | .resize _ => False
  | .query _ => False
  | .backup => False

instance (w : World κ τ ε) : (op : Op τ α) → Decidable (A.ContentFails w op)
  | .put _ => inferInstanceAs (Decidable (_ ∧ ∃ r ∈ w.table.rows, _))
  | .renew _ _ => inferInstanceAs (Decidable False)
  | .update _ _ => inferInstanceAs (Decidable (_ ∧ ∃ r ∈ w.table.rows, _))
  | .resize _ => inferInstanceAs (Decidable False)
  | .query _ => inferInstanceAs (Decidable False)
  | .backup => inferInstanceAs (Decidable False)

end Algo

/-- What a call whose statements succeed may answer: it returns, or an argument check rejects it. -/
def Answers (o : Except Error (Ret τ)) : Prop :=
  (∃ v, o = .ok v) ∨ ∃ e : AlgoError, o = .error (.algo e) ∧ e.IsArgument

/-- The state between two calls of a run whose statements succeed. -/
structure Inv (Good : Table κ → ε → Prop) (w : World κ τ ε) : Prop where
  sound : Sound w
  good : Good w.table w.metaMem.extra
  within : w.metaMem.cacheSize ≤ w.metaMem.maxSize

end XCache
