import XCache.Proofs.Capacity

/-!
# No eviction too many

The loop of `remove_cache` evicts a row only if what is left with it does not leave the room that
is asked for. So with one eviction fewer the outcome of a call would not have fitted
(`last_needed`). When the row that was to grow is itself evicted, the room is asked for all the
same: what the row was to gain has to be counted (`last_not_needed` is what happens if it is not).
-/

namespace XCache

variable {κ τ ε α : Type} [Columns κ]

/-- The size a call asks for, if any. -/
def Op.size : Op τ α → ℕ
  | .put c => c.size.toNat
  | .renew _ _ => 0
  | .update _ n => n.toNat
  | .resize _ => 0
  | .query _ => 0
  | .backup => 0

/-- What the row of a call was to gain, when the call has evicted it. -/
def Op.lost (op : Op τ α) (w w' : World κ τ ε) : ℕ :=
  if w.table.count op.key ≠ 0 ∧ w'.table.count op.key = 0 then op.size - w.table.sizeOf op.key
  else 0

/-- The last file handed out would not have fitted with the rows that are left and what is still
pending. -/
def Needed (w w' : World κ τ ε) (pending : ℕ) : Prop :=
  ∀ vs e, w'.delivered = w.delivered ++ vs → vs.flatten.getLast? = some e →
    w'.metaMem.maxSize.toNat < w'.table.total + e.size.toNat + pending

theorem needed_of_delivered {w w' : World κ τ ε} (h : w'.delivered = w.delivered) (pending : ℕ) :
    Needed w w' pending := by
  intro vs e hvs he
  rw [h, List.self_eq_append_right] at hvs
  simp [hvs] at he

namespace Policy

variable {P : Policy κ τ ε} {w : World κ τ ε} {need : UInt64}

/-- The last victim of `remove_cache` left no room as long as it was there. -/
theorem shrink_needed (hw : Sound w) {vs : List (List (Cache τ))} {e : Cache τ}
    (hd : (P.shrink w need).delivered = w.delivered ++ vs) (he : vs.flatten.getLast? = some e) :
    w.metaMem.maxSize.toNat
      < (P.shrink w need).metaMem.cacheSize.toNat + e.size.toNat + need.toNat := by
  rw [shrink_delivered, List.append_cancel_left_eq] at hd
  subst hd
  rcases List.eq_nil_or_concat (P.dropped w need) with h0 | ⟨D, r, hD⟩
  · simp [h0] at he
  rw [List.concat_eq_append] at hD
  have her : e = P.getRow r := by
    rw [hD] at he
    simpa using he.symm
  have hpre : D ++ [r] <+: P.dropped w need := hD ▸ List.prefix_rfl
  obtain ⟨hover, hr⟩ := dropped_concat hpre
  have hsound := sound_evict hw ((List.prefix_append D [r]).trans
    (hpre.trans (dropped_isPrefix need)))
  have hle := hsound.size_le (P.worst_mem hr)
  -- what is left is what the loop saw before the last eviction, less the victim
  have hleft : (P.shrink w need).metaMem.cacheSize
      = (P.evict w D).metaMem.cacheSize - columnUInt64 r.size := by
    rw [shrink_metaMem, hD, evict_concat]
    rfl
  have hlt : (P.evict w D).metaMem.maxSize.toNat
      < ((P.evict w D).metaMem.cacheSize + need).toNat := UInt64.lt_iff_toNat_lt.1 hover
  have hmod := Nat.mod_le ((P.evict w D).metaMem.cacheSize.toNat + need.toNat) (2 ^ 64)
  rw [evict_maxSize, UInt64.toNat_add] at hlt
  have hle' := UInt64.le_iff_toNat_le.1 hle
  have hsize : e.size = columnUInt64 r.size := by rw [her]; rfl
  rw [hleft, hsize, UInt64.toNat_sub_of_le _ _ hle]
  omega

end Policy

namespace Algo

variable {A : Algo κ τ ε α} {w w' : World κ τ ε} {op : Op τ α} {res : Except Error (Ret τ)}

/-- `update_size` in a world whose table has the keys and sizes of the table before the call. -/
theorem SizeEffect.needed {r : Row κ} {n : UInt64} {res : Except Error Unit} (hw : Sound w)
    (hq : w.fails = []) (hr : r ∈ w.table.rows)
    (h : A.SizeEffect w r.key (columnUInt64 r.size) n res w') :
    Needed w w' (if r.key ∈ w'.table.keys then 0 else n.toNat - r.bytes) := by
  cases h with
  | same => exact needed_of_delivered rfl _
  | evictFailed D _ _ _ hf => simp [hq] at hf
  | aborted hgrow hmem =>
    intro vs e hd he
    have hgone : r.key ∉ (A.shrink w (n - columnUInt64 r.size)).table.keys :=
      Policy.not_mem_shrink hmem
    have hlt := Policy.shrink_needed hw hd he
    rw [if_neg hgone, (Policy.sound_shrink hw _).total, Policy.shrink_maxSize]
    rw [Row.growth hgrow] at hlt
    exact hlt
  | contentFailed _ _ hf => simp [hq] at hf
  | resized t hne hs _ ht =>
    intro vs e hd he
    have hd : (A.roomFor w (columnUInt64 r.size) n).delivered = w.delivered ++ vs := hd
    have hmax : (A.roomFor w (columnUInt64 r.size) n).metaMem.maxSize = w.metaMem.maxSize :=
      A.roomFor_maxSize _ _
    by_cases hgrow : n > columnUInt64 r.size
    · have hroom : A.roomFor w (columnUInt64 r.size) n = A.shrink w (n - columnUInt64 r.size) :=
        if_pos hgrow
      have hlt := Policy.shrink_needed hw (hroom ▸ hd) he
      have hv := (A.sound_roomFor hw (columnUInt64 r.size) n).total
      have hbytes := Row.bytes_lt.1 hgrow
      have hsum := Table.update_sum Row.bytes ht (A.mem_roomFor hr hs)
      rw [setSize_bytes] at hsum
      rw [← hroom, Row.growth hgrow] at hlt
      show (A.roomFor w (columnUInt64 r.size) n).metaMem.maxSize.toNat < t.total + _ + _
      unfold Table.total at hv ⊢
      rw [hmax]
      split_ifs <;> omega
    · have hroom : A.roomFor w (columnUInt64 r.size) n = w := if_neg hgrow
      rw [hroom, List.self_eq_append_right] at hd
      simp [hd] at he

theorem lost_eq {op : Op τ α} {r : Row κ} (hr : r ∈ w.table.rows) (hk : op.key = r.key)
    (w' : World κ τ ε) :
    op.lost w w' = if r.key ∈ w'.table.keys then 0 else op.size - r.bytes := by
  have hmem : r.key ∈ w.table.keys := Table.mem_keys.2 ⟨r, hr, rfl⟩
  unfold Op.lost
  rw [hk, sizeOf_row hr rfl]
  simp only [Table.count_pos, Table.count_eq_zero]
  split_ifs <;> simp_all

theorem Effect.needed (h : A.Effect w op res w') (hw : Sound w) (hq : w.fails = [])
    (hk : KeyExact op.key) (hres : ∃ v, res = .ok v) : Needed w w' (op.lost w w') := by
  have hb := hk.bound
  cases h with
  | put c t hc hmem ht =>
    intro vs e hd he
    have hlt := Policy.shrink_needed (hw.tick 1) hd he
    have hv := (Policy.sound_shrink (P := A.toPolicy) (hw.tick 1) c.size).total
    show (A.shrink (w.tick 1) c.size).metaMem.maxSize.toNat < t.total + _ + _
    rw [Table.total, Table.insert_rows ht, List.map_append, List.sum_append, List.map_singleton,
      List.sum_singleton, newRow_bytes, Policy.shrink_maxSize, tick_metaMem]
    unfold Table.total at hv
    rw [tick_metaMem] at hlt
    omega
  | putGrown c r t res' w' hc hr hkr hgrow ht hs =>
    have hr' : touchRow A.touch w.metaMem.extra (A.arg c) r ∈ t.rows :=
      (Table.mem_update ht).2 ⟨r, hr, if_pos hkr⟩
    rw [lost_eq hr (hb.symm.trans hkr.symm)]
    exact SizeEffect.needed (w := A.renewWorld (w.tick 1) t)
      (r := touchRow A.touch w.metaMem.extra (A.arg c) r) (A.sound_renewWorld (hw.tick 1) ht) hq
      hr' hs
  | updated k n r res' w' hc hr hkr hs =>
    rw [lost_eq hr (hb.symm.trans hkr.symm)]
    exact SizeEffect.needed (w := w.tick 1) (hw.tick 1) hq hr hs
  | resize n w₁ hn hw₁ =>
    subst hw₁
    have hw₁ : Sound { w with metaMem := { w.metaMem with maxSize := n } } := hw.of_eq rfl rfl hn
    intro vs e hd he
    have hlt := Policy.shrink_needed hw₁ hd he
    rw [UInt64.toNat_zero] at hlt
    rw [Policy.shrink_maxSize, (Policy.sound_shrink hw₁ 0).total]
    omega
  | putEvictFailed | putInsertFailed | putConflict | putRenewConflict | resizeFailed =>
    obtain ⟨v, hv⟩ := hres
    cases hv
  | _ => exact needed_of_delivered rfl _

end Algo

/-! ## Runs -/

/-- In both classes, whatever has been called before: a call that returns has evicted nothing that
would have fitted. -/
theorem last_needed {M : UInt64} (hM : M ≠ 0) :
    (∀ (ops : List Lru.Op) (op : Lru.Op) (v : Lru.Ret),
      RunOk Lru.step Algo.Sums (Lru.start M) (ops ++ [op]) →
      let w := (run Lru.step (Lru.start M) ops).2
      (Lru.step w op).1 = .ok v → Needed w (Lru.step w op).2 (op.lost w (Lru.step w op).2))
    ∧ ∀ (ops : List (Lfuda.Resolver × Lfuda.Op)) (i : Lfuda.Resolver × Lfuda.Op) (v : Lfuda.Ret),
      RunOk Lfuda.step (fun w i => Algo.Sums w i.2) (Lfuda.start M) (ops ++ [i]) →
      let w := (run Lfuda.step (Lfuda.start M) ops).2
      (Lfuda.step w i).1 = .ok v →
        Needed w (Lfuda.step w i).2 (i.2.lost w (Lfuda.step w i).2) := by
  constructor
  · intro ops op v hops w hv
    obtain ⟨h1, h2⟩ := runOk_append.1 hops
    have hw := Lru.run_balanced hM ops h1
    refine Algo.Effect.needed (A := Lru.algo) ?_ hw.sound hw.quiet h2.1.1 ⟨v, hv⟩
    rw [Lru.step, Lru.call_eq]
    exact Lru.algo.call_effect hw.sound op
  · intro ops i v hops w hv
    obtain ⟨h1, h2⟩ := runOk_append.1 hops
    have hw := Lfuda.run_balanced hM ops h1
    refine Algo.Effect.needed (A := Lfuda.algo i.1) ?_ hw.sound hw.quiet h2.1.1 ⟨v, hv⟩
    rw [Lfuda.step, Lfuda.call_eq]
    exact (Lfuda.algo i.1).call_effect hw.sound i.2

/-- The growth of the second file evicts the first. -/
theorem last_needed_pair :
    Needed Lru.pair (Lru.step Lru.pair (.update [98] 7)).2
        ((Op.update [98] 7 : Lru.Op).lost Lru.pair (Lru.step Lru.pair (.update [98] 7)).2)
      ∧ Needed Lfuda.pair (Lfuda.step Lfuda.pair (.first, .update [98] 7)).2
        ((Op.update [98] 7 : Lfuda.Op).lost Lfuda.pair
          (Lfuda.step Lfuda.pair (.first, .update [98] 7)).2) := by
  have hM : (10 : UInt64) ≠ 0 := by decide
  exact ⟨(last_needed hM).1 _ _ (.bool true) (by decide) (by decide),
    (last_needed hM).2 _ _ (.bool true) (by decide) (by decide)⟩

/-- The growth of the first file evicts it: 4 bytes are left, and the 4 bytes of the first file
would have fitted with them. The same happens in a cache that has lost count: after a key with a
NUL, after a content update that has failed, after a sum of sizes that has wrapped. -/
theorem last_not_needed :
    ((Lru.step Lru.pair (.update [97] 7)).1 = .ok (.bool true)
      ∧ ¬ Needed Lru.pair (Lru.step Lru.pair (.update [97] 7)).2 0)
    ∧ ((Lfuda.step Lfuda.pair (.first, .update [97] 7)).1 = .ok (.bool true)
      ∧ ¬ Needed Lfuda.pair (Lfuda.step Lfuda.pair (.first, .update [97] 7)).2 0)
    ∧ (let w := (run Lru.step (Lru.start 10) [.put ⟨[0], 5, 0, [], ⟨0⟩⟩, .put ⟨[98], 6, 0, [], ⟨0⟩⟩,
        .put ⟨[99], 5, 0, [], ⟨0⟩⟩]).2
      let op : Lru.Op := .put ⟨[100], 5, 0, [], ⟨0⟩⟩
      (Lru.step w op).1 = .ok (.bool true) ∧ ¬ Needed w (Lru.step w op).2 0)
    ∧ (let w := (run Lru.step ((Lru.start 10).faulty [5]) [.put ⟨[97], 4, 0, [], ⟨0⟩⟩,
        .update [97] 8]).2
      let op : Lru.Op := .put ⟨[98], 5, 0, [], ⟨0⟩⟩
      (Lru.step w op).1 = .ok (.bool true) ∧ ¬ Needed w (Lru.step w op).2 0)
    ∧ (let w := (run Lru.step (Lru.start 18446744073709551615)
        [.put ⟨[97], 18446744073709551615, 0, [], ⟨0⟩⟩, .put ⟨[98], 1, 0, [], ⟨0⟩⟩,
          .put ⟨[99], 5, 0, [], ⟨0⟩⟩, .resize 3, .resize 3, .resize 10,
          .put ⟨[100], 6, 0, [], ⟨0⟩⟩]).2
      let op : Lru.Op := .put ⟨[101], 1, 0, [], ⟨0⟩⟩
      (Lru.step w op).1 = .ok (.bool true) ∧ ¬ Needed w (Lru.step w op).2 0) := by
  refine ⟨⟨by decide, fun h => ?_⟩, ⟨by decide, fun h => ?_⟩, ⟨by decide, fun h => ?_⟩,
    ⟨by decide, fun h => ?_⟩, ⟨by decide, fun h => ?_⟩⟩
  · exact absurd (h [[⟨[97], 4, 0, [], ⟨1⟩⟩]] _ (by decide) rfl) (by decide)
  · exact absurd (h [[⟨[97], 4, 0, [], ⟨1, 1, 1⟩⟩]] _ (by decide) rfl) (by decide)
  · exact absurd (h [[⟨[99], 5, 0, [], ⟨2⟩⟩]] _ (by decide) rfl) (by decide)
  · exact absurd (h [[⟨[97], 4, 0, [], ⟨1⟩⟩]] _ (by decide) rfl) (by decide)
  · exact absurd (h [[⟨[100], 6, 0, [], ⟨4⟩⟩]] _ (by decide) rfl) (by decide)

end XCache
