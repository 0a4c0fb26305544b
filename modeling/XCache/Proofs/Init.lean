import XCache.Init
import XCache.Proofs.Invariant

/-!
# What `init` does, for both classes

The effects of `init` on any database, and the meta record's way through the database: it comes
back as it was written (`loaded_backup`).
-/

namespace XCache

variable {κ τ ε : Type} [Columns κ]

namespace Policy

variable {P : Policy κ τ ε} {w : World κ τ ε}

/-- The signed columns of the meta table give back the unsigned fields. -/
theorem columnMeta_bindMeta (m : Meta ε) : P.columnMeta (P.bindMeta m) = m := by
  simp [columnMeta, bindMeta, columnUInt64, bindUInt64, P.columnExtra_bindExtra]

theorem loaded_of_row {m : Meta ε} (h : w.metaRow = some (P.bindMeta m)) : P.loaded w = m := by
  rw [loaded, h, Option.map_some, Option.getD_some, columnMeta_bindMeta]

theorem wp_queryMeta {Q : Except Error (Meta ε) → World κ τ ε → Prop} :
    wp P.queryMeta Q w ↔ (w.clock ∈ w.fails → Q (.error (.sqlite .failed)) (w.tick 1))
      ∧ (w.clock ∉ w.fails → Q (.ok (P.loaded w)) (w.tick 1)) :=
  wp_readWorld

/-- The last statement of `init`. -/
theorem wp_removing {Check : Meta ε → Table κ → Prop} (hok : w.clock ∉ w.fails)
    (hok' : w.clock + 1 ∉ w.fails) (hmax : (P.loaded w).maxSize ≠ 0)
    (hc : Check (P.loaded w) w.table) :
    wp (if (P.loaded w).cacheSize > (P.loaded w).maxSize then do
        let _ ← P.removeCache 0 []
      else pure ()) (P.InitEffect Check w) ((P.load w).tick 1) := by
  rw [wp_ite]
  constructor
  · intro hover
    rw [wp_bind]
    rcases ho : outcome (P.removeCache 0 []) ((P.load w).tick 1) with ⟨res, w'⟩
    have := InitEffect.removing (P := P) res w' hok hok' hmax hc hover ho
    unfold wp
    rw [ho]
    rcases res with e | b <;> exact this
  · intro hin
    exact .done hok hok' hmax hc (UInt64.not_lt.1 hin)

theorem InitEffect.ok {Check : Meta ε → Table κ → Prop} {res : Except Error Unit}
    {w' : World κ τ ε} (h : P.InitEffect Check w res w') (hq : w.fails = [])
    (hmax : (P.loaded w).maxSize ≠ 0) (hc : Check (P.loaded w) w.table)
    (hin : (P.loaded w).cacheSize ≤ (P.loaded w).maxSize) :
    res = .ok () ∧ w' = (P.load w).tick 1 := by
  cases h with
  | unread hf => simp [hq] at hf
  | noMaxSize _ h0 => exact absurd h0 hmax
  | unchecked _ hf => simp [hq] at hf
  | rejected _ _ _ _ hn => exact absurd hc hn
  | done => exact ⟨rfl, rfl⟩
  | removing _ _ _ _ _ _ hover => exact absurd hover (UInt64.not_lt.2 hin)

end Policy

theorem Lru.init_effect (w : Lru.World) : wp Lru.init (Lru.policy.InitEffect Lru.Check w) w := by
  unfold Lru.init
  rw [wp_bind, Policy.wp_queryMeta]
  refine ⟨fun hf => .unread hf, fun hok => ?_⟩
  simp only []
  rw [wp_bind, wp_modify]
  simp only []
  rw [wp_bind, wp_throwIf]
  refine ⟨fun h0 => .noMaxSize hok h0, fun hmax => ?_⟩
  simp only []
  rw [wp_bind, Lru.queryLruNew, wp_readWorld]
  refine ⟨fun hf => .unchecked hok hf hmax, fun hok' => ?_⟩
  simp only []
  rw [wp_bind, wp_throwIf]
  refine ⟨fun h => .rejected _ hok hok' trivial fun hc => h.2 (hc.empty h.1), fun h1 => ?_⟩
  simp only []
  rw [wp_bind, wp_throwIf]
  refine ⟨fun h => .rejected _ hok hok' trivial fun hc => h.2 (hc.sequence h.1), fun h2 => ?_⟩
  simp only []
  rw [wp_bind, wp_throwIf]
  refine ⟨fun h => .rejected _ hok hok' trivial fun hc => UInt64.not_lt.2 (hc.size h.1) h.2,
    fun h3 => ?_⟩
  have hc : Lru.Check (Lru.policy.loaded w) w.table :=
    ⟨fun h => by_contra fun h0 => h1 ⟨h, h0⟩, fun h => by_contra fun h0 => h2 ⟨h, h0⟩,
      fun h => UInt64.not_lt.1 fun h0 => h3 ⟨h, h0⟩⟩
  exact Policy.wp_removing hok hok' hmax hc

theorem Lfuda.init_effect (R : Lfuda.Resolver) (w : Lfuda.World) :
    wp (Lfuda.init R) ((Lfuda.policy R).InitEffect (Lfuda.Check R) w) w := by
  unfold Lfuda.init
  rw [wp_bind, Policy.wp_queryMeta]
  refine ⟨fun hf => .unread hf, fun hok => ?_⟩
  simp only []
  rw [wp_bind, wp_modify]
  simp only []
  rw [wp_bind, wp_throwIf]
  refine ⟨fun h0 => .noMaxSize hok h0, fun hmax => ?_⟩
  simp only []
  rw [wp_bind, Lfuda.queryLfudaWorst, wp_readWorld]
  refine ⟨fun hf => .unchecked hok hf hmax, fun hok' => ?_⟩
  simp only []
  rw [wp_bind, wp_throwIf]
  refine ⟨fun h => .rejected _ hok hok' trivial fun hc => h.2 (hc.empty h.1), fun h1 => ?_⟩
  simp only []
  rw [wp_bind, wp_throwIf]
  refine ⟨fun h => .rejected _ hok hok' trivial fun hc => UInt64.not_lt.2 (hc.size h.1) h.2,
    fun h2 => ?_⟩
  have hc : Lfuda.Check R ((Lfuda.policy R).loaded w) w.table :=
    ⟨fun h => by_contra fun h0 => h1 ⟨h, h0⟩, fun h => UInt64.not_lt.1 fun h0 => h2 ⟨h, h0⟩⟩
  exact Policy.wp_removing hok hok' hmax hc

end XCache
