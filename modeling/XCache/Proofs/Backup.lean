import XCache.Proofs.Init

/-!
# The meta record in the database

Only `backup` writes it (`effect_metaRow`). A destructor is a `backup`; the constructor and `init`
that follow load what it has written, find it consistent with the rows and evict nothing
(`wp_restart`).
-/

namespace XCache

variable {κ τ ε α : Type} [Columns κ]

/-- The call has written the meta record. -/
def Op.saves : Op τ α → Except Error (Ret τ) → Bool
  | .backup, .ok _ => true
  | _, _ => false

theorem saves_error (op : Op τ α) (e : Error) : op.saves (.error e) = false := by
  cases op <;> rfl

namespace Algo

variable {A : Algo κ τ ε α} {w w' : World κ τ ε} {op : Op τ α} {res : Except Error (Ret τ)}

@[simp] theorem roomFor_metaRow (size n : UInt64) :
    (A.roomFor w size n).metaRow = w.metaRow := by
  unfold roomFor
  split_ifs <;> simp

theorem sizeEffect_metaRow {key : Bytes} {size n : UInt64} {res : Except Error Unit}
    (h : A.SizeEffect w key size n res w') : w'.metaRow = w.metaRow := by
  cases h with
  | same => rfl
  | evictFailed => exact Policy.evict_metaRow _ _
  | aborted => exact Policy.shrink_metaRow
  | contentFailed => exact roomFor_metaRow _ _
  | resized => exact roomFor_metaRow _ _

/-- Only `backup` writes the meta record, and it writes nothing else. -/
theorem effect_metaRow (h : A.Effect w op res w') :
    (op.saves res = false ∧ w'.metaRow = w.metaRow)
      ∨ op.saves res = true ∧ w'.metaRow = w.metaRow.map (fun _ => A.bindMeta w.metaMem)
        ∧ w'.table = w.table ∧ w'.metaMem = w.metaMem := by
  cases h with
  | rejected op e => exact .inl ⟨saves_error op _, rfl⟩
  | failed op n => exact .inl ⟨saves_error op _, rfl⟩
  | putEvictFailed => exact .inl ⟨rfl, Policy.evict_metaRow (w.tick 1) _⟩
  | putInsertFailed => exact .inl ⟨rfl, Policy.shrink_metaRow (w := w.tick 1)⟩
  | putConflict => exact .inl ⟨rfl, Policy.shrink_metaRow (w := w.tick 1)⟩
  | put => exact .inl ⟨rfl, Policy.shrink_metaRow (w := w.tick 1)⟩
  | putRenewConflict => exact .inl ⟨rfl, rfl⟩
  | putRenewed => exact .inl ⟨rfl, rfl⟩
  | putGrown c r t res' w' _ _ _ _ _ hs =>
    exact .inl ⟨rfl, sizeEffect_metaRow (w := A.renewWorld (w.tick 1) t) hs⟩
  | renewMissing => exact .inl ⟨rfl, rfl⟩
  | renewConflict => exact .inl ⟨rfl, rfl⟩
  | renewed => exact .inl ⟨rfl, rfl⟩
  | updateMissing => exact .inl ⟨rfl, rfl⟩
  | updated k n r res' w' _ _ _ hs =>
    exact .inl ⟨rfl, sizeEffect_metaRow (w := w.tick 1) hs⟩
  | resizeFailed n D w₁ _ hw₁ =>
    subst hw₁
    exact .inl ⟨rfl, Policy.evict_metaRow _ _⟩
  | resize n w₁ _ hw₁ =>
    subst hw₁
    exact .inl ⟨rfl, Policy.shrink_metaRow⟩
  | query => exact .inl ⟨rfl, rfl⟩
  | backup => exact .inr ⟨rfl, rfl, rfl, rfl⟩

end Algo

/-- A new object on the same database. -/
def Policy.reopen (P : Policy κ τ ε) (w : World κ τ ε) : World κ τ ε :=
  P.construct w.table w.metaRow []

/-- What `init` has found if it returns. -/
theorem Policy.InitEffect.checked {P : Policy κ τ ε} {Check : Meta ε → Table κ → Prop}
    {w w' : World κ τ ε} (h : P.InitEffect Check w (.ok ()) w') : Check (P.loaded w) w.table := by
  generalize hres : (Except.ok () : Except Error Unit) = res at h
  cases h with
  | unread => cases hres
  | noMaxSize => cases hres
  | unchecked => cases hres
  | rejected => cases hres
  | done _ _ _ hc => exact hc
  | removing _ _ _ _ _ hc => exact hc

/-! ## Destruction and the next `init` -/

section Restart

/-- Two worlds between calls that differ in what a call does not look at: the meta record in the
database and the number of statements that have run. -/
structure Alike (w w' : World κ τ ε) : Prop where
  table : w.table = w'.table
  metaMem : w.metaMem = w'.metaMem
  delivered : w.delivered = w'.delivered
  fails : w.fails = []
  fails' : w'.fails = []

variable {P : Policy κ τ ε} {w : World κ τ ε}

theorem Policy.wp_backup {Q : Except Error Unit → World κ τ ε → Prop} :
    wp P.backup Q w ↔ (w.clock ∈ w.fails → Q (.error (.sqlite .failed)) (w.tick 1))
      ∧ (w.clock ∉ w.fails →
        Q (.ok ()) { w.tick 1 with metaRow := w.metaRow.map fun _ => P.bindMeta w.metaMem }) := by
  unfold backup
  rw [wp_bind, wp_get]
  exact wp_statement

/-- The destructor, the constructor and `init`, on an object whose record tallies with its rows. -/
theorem Policy.wp_restart {Check : Meta ε → Table κ → Prop} {init : Call κ τ ε Unit}
    (hinit : ∀ w, wp init (P.InitEffect Check w) w) (hq : w.fails = [])
    (hrow : w.metaRow.isSome) (hmax : w.metaMem.maxSize ≠ 0)
    (hin : w.metaMem.cacheSize ≤ w.metaMem.maxSize) (hc : Check w.metaMem w.table) :
    wp (do
      P.backup
      modify fun w => { w with metaMem := ⟨0, 0, P.zeroExtra⟩ }
      init) (fun res w' => res = .ok () ∧ Alike w' w ∧ w'.metaRow.isSome) w := by
  rw [wp_bind, Policy.wp_backup]
  refine ⟨fun hf => by simp [hq] at hf, fun _ => ?_⟩
  simp only []
  rw [wp_bind, wp_modify]
  refine wp_mono (hinit _) fun res w' h => ?_
  obtain ⟨row, hr⟩ := Option.isSome_iff_exists.1 hrow
  have hload := Policy.loaded_of_row (P := P) (m := w.metaMem)
    (w := { w.tick 1 with
      metaRow := w.metaRow.map fun _ => P.bindMeta w.metaMem, metaMem := ⟨0, 0, P.zeroExtra⟩ })
    (by rw [hr]; rfl)
  obtain ⟨rfl, rfl⟩ := h.ok hq (by rw [hload]; exact hmax) (by rw [hload]; exact hc)
    (by rw [hload]; exact hin)
  refine ⟨rfl, ⟨rfl, hload, rfl, hq, hq⟩, ?_⟩
  show (w.metaRow.map fun _ => P.bindMeta w.metaMem).isSome
  rw [Option.isSome_map]
  exact hrow

end Restart

end XCache
