import XCache.Proofs.LruSequence
import XCache.Proofs.LfudaAging

/-!
# Every file is in the cache or handed out

What a call finds in the table and what it inserts is afterwards either still in the table or has
been handed to `remove_callback`, once (`Conserves`). A renewal touches neither keys nor sizes,
`remove_cache` moves rows from the table to the callback, and an insertion or a change of size
comes after it.
-/

namespace XCache

variable {κ τ ε α : Type} [Columns κ]

/-- The size of the row of `key`; zero if there is none. -/
def Table.sizeOf (t : Table κ) (key : Bytes) : ℕ := ((t.find key).map Row.bytes).getD 0

/-- What a call adds to the size of the row of `key`, if that row is there after the call. -/
def gain (t t' : Table κ) (key : Bytes) : ℤ :=
  if key ∈ t'.keys then t'.sizeOf key - t.sizeOf key else 0

/-- The key a call inserts: `put` returns true exactly if it inserts. -/
def Op.inserted : Op τ α → Except Error (Ret τ) → List Bytes
  | .put c, .ok (.bool true) => [c.key]
  | _, _ => []

/-- A row that was there ends with the given size, or it is gone and was handed out once. -/
def Ends (w' : World κ τ ε) (vs : List (List (Cache τ))) (key : Bytes) (size : ℕ) : Prop :=
  (∃ r ∈ w'.table.rows, r.key = key ∧ r.bytes = size)
    ∨ key ∉ w'.table.keys ∧ (vs.flatten.map Cache.key).count key = 1

/-- From `w` to `w'`, with `new` inserted and the vectors `vs` handed out; `g` is what the size of
the row of the call gained. -/
structure Moves (w w' : World κ τ ε) (new : List Bytes) (g : ℤ) (vs : List (List (Cache τ))) :
    Prop where
  delivered : w'.delivered = w.delivered ++ vs
  keys : (vs.flatten.map Cache.key ++ w'.table.keys).Perm (w.table.keys ++ new)
  sizes : ∀ e ∈ vs.flatten, ∃ r ∈ w.table.rows, r.key = e.key ∧ columnUInt64 r.size = e.size
  balance : (w'.metaMem.cacheSize.toNat : ℤ)
    = w.metaMem.cacheSize.toNat - (vs.flatten.map fun e => e.size.toNat).sum + g

/-- What a call does to the files, whether it returns or throws. -/
structure Conserves (w : World κ τ ε) (op : Op τ α) (res : Except Error (Ret τ))
    (w' : World κ τ ε) (vs : List (List (Cache τ))) : Prop where
  moves : Moves w w' (op.inserted res) (gain w.table w'.table op.key) vs
  disjoint : (vs.flatten.map Cache.key ++ w'.table.keys).Nodup
  update : ∀ k n, op = .update k n → Algo.Accepts w k n → k ∈ w.table.keys →
    Ends w' vs k n.toNat
  put : ∀ c, op = .put c → Algo.Accepts w c.key c.size → c.key ∈ w.table.keys →
    Ends w' vs c.key (max (w.table.sizeOf c.key) c.size.toNat)

section Sizes

variable {t t' : Table κ} {r : Row κ} {key : Bytes}

theorem sizeOf_row (hr : r ∈ t.rows) (hk : r.key = key) : t.sizeOf key = r.bytes := by
  rw [Table.sizeOf, Table.find_some.2 ⟨hr, hk⟩]
  rfl

theorem sizeOf_absent (h : key ∉ t.keys) : t.sizeOf key = 0 := by
  rw [Table.sizeOf, Table.find_none.2 h]
  rfl

/-- By key and size, every row of `t'` is one of `t`. -/
def Table.Within (t' t : Table κ) : Prop :=
  ∀ r' ∈ t'.rows, ∃ r ∈ t.rows, r.key = r'.key ∧ r.bytes = r'.bytes

theorem gain_within (h : t'.Within t) (key : Bytes) : gain t t' key = 0 := by
  unfold gain
  split_ifs with hmem
  · obtain ⟨r', hr', hk'⟩ := Table.mem_keys.1 hmem
    obtain ⟨r, hr, hk, hb⟩ := h r' hr'
    rw [sizeOf_row hr' hk', sizeOf_row hr (hk.trans hk'), hb]
    omega
  · rfl

theorem within_refl (t : Table κ) : t.Within t := fun r hr => ⟨r, hr, rfl, rfl⟩

theorem within_touch {touch : ε → α → κ → κ} {x : ε} {a : α}
    (ht : t.update key (touchRow touch x a) = some t') : t'.Within t := by
  intro r' hr'
  obtain ⟨r, hr, rfl⟩ := (Table.mem_update ht).1 hr'
  refine ⟨r, hr, ?_⟩
  split_ifs <;> exact ⟨rfl, rfl⟩

theorem touch_keys {touch : ε → α → κ → κ} {x : ε} {a : α}
    (ht : t.update key (touchRow touch x a) = some t') : t'.keys = t.keys :=
  Table.update_keys (f := touchRow touch x a) (fun _ => rfl) ht

end Sizes

section Moves

variable {w w₁ w' : World κ τ ε} {new : List Bytes} {g : ℤ} {vs : List (List (Cache τ))}

theorem Moves.nothing (hd : w'.delivered = w.delivered) (hk : w'.table.keys = w.table.keys)
    (hc : w'.metaMem.cacheSize = w.metaMem.cacheSize) : Moves w w' [] 0 [] where
  delivered := by rw [hd, List.append_nil]
  keys := by
    rw [hk, List.append_nil]
    rfl
  sizes := by simp
  balance := by
    rw [hc]
    simp

/-- A first part of the call that touches neither keys nor sizes. -/
theorem Moves.after (h : Moves w₁ w' new g vs) (hd : w₁.delivered = w.delivered)
    (hk : w₁.table.keys = w.table.keys) (hin : w₁.table.Within w.table)
    (hc : w₁.metaMem.cacheSize = w.metaMem.cacheSize) : Moves w w' new g vs where
  delivered := hd ▸ h.delivered
  keys := hk ▸ h.keys
  sizes e he := by
    obtain ⟨r₁, hr₁, hk₁, hz₁⟩ := h.sizes e he
    obtain ⟨r, hr, hk, hb⟩ := hin r₁ hr₁
    exact ⟨r, hr, hk.trans hk₁, (UInt64.toNat_inj.1 hb).trans hz₁⟩
  balance := hc ▸ h.balance

theorem moves_shrink {P : Policy κ τ ε} (hw : Sound w) (need : UInt64) :
    ∃ vs, Moves w (P.shrink w need) [] 0 vs
      ∧ vs.flatten = (P.dropped w need).map P.getRow := by
  have hpre := P.dropped_isPrefix (w := w) need
  have hrow : ∀ r ∈ P.dropped w need, r ∈ w.table.rows := fun r hr =>
    Policy.mem_order.1 (hpre.subset hr)
  have hkey : ((P.dropped w need).map P.getRow).map Cache.key = (P.dropped w need).map Row.key := by
    rw [List.map_map]
    exact List.map_congr_left fun r hr => hw.plain.getRow_key (hrow r hr)
  have hflat : (if P.dropped w need = [] then []
      else [(P.dropped w need).map P.getRow]).flatten = (P.dropped w need).map P.getRow := by
    split_ifs with h0
    · rw [h0]
      rfl
    · exact List.append_nil _
  refine ⟨_, ⟨Policy.shrink_delivered, ?_, ?_, ?_⟩, hflat⟩
  · rw [hflat, hkey, List.append_nil, Table.keys, Policy.shrink_table, ← List.map_append]
    exact ((Policy.evict_perm hpre).map Row.key).symm
  · rw [hflat]
    intro e he
    obtain ⟨r, hr, rfl⟩ := List.mem_map.1 he
    exact ⟨r, hrow r hr, (hw.plain.getRow_key (hrow r hr)).symm, rfl⟩
  · have htotal := Policy.evict_total hpre
    have hw' := (Policy.sound_shrink (P := P) hw need).total
    rw [hw.total] at htotal
    rw [Policy.shrink_table] at hw'
    rw [hflat, List.map_map, ← hw']
    have hbytes : ((P.dropped w need).map ((fun e => e.size.toNat) ∘ P.getRow))
        = (P.dropped w need).map Row.bytes := rfl
    rw [hbytes, htotal]
    push_cast
    omega

theorem Moves.gone {key : Bytes} (h : Moves w w' [] g vs) (hk : key ∈ w.table.keys)
    (hgone : key ∉ w'.table.keys) : (vs.flatten.map Cache.key).count key = 1 := by
  have hone : w.table.keys.count key = 1 := List.count_eq_one_of_mem w.table.keys_nodup hk
  have hcount := h.keys.count_eq key
  rw [List.append_nil, hone, List.count_append, List.count_eq_zero_of_not_mem hgone] at hcount
  omega

theorem Conserves.of_moves {op : Op τ α} {res : Except Error (Ret τ)} {new : List Bytes} {g : ℤ}
    (h : Moves w w' new g vs) (hnew : op.inserted res = new)
    (hg : g = gain w.table w'.table op.key) (hnd : (w.table.keys ++ new).Nodup)
    (hup : ∀ k n, op = .update k n → Algo.Accepts w k n → k ∈ w.table.keys → Ends w' vs k n.toNat)
    (hput : ∀ c, op = .put c → Algo.Accepts w c.key c.size → c.key ∈ w.table.keys →
      Ends w' vs c.key (max (w.table.sizeOf c.key) c.size.toNat)) : Conserves w op res w' vs where
  moves := by
    rw [hnew, ← hg]
    exact h
  disjoint := h.keys.nodup_iff.2 hnd
  update := hup
  put := hput

/-- A call that neither inserts nor changes a size, and is no accepted `put` or `update` of a key
that is there. -/
theorem Conserves.within {op : Op τ α} {res : Except Error (Ret τ)} (h : Moves w w' [] 0 vs)
    (hnew : op.inserted res = []) (hin : w'.table.Within w.table)
    (hup : ∀ k n, op = .update k n → Algo.Accepts w k n → k ∉ w.table.keys)
    (hput : ∀ c, op = .put c → Algo.Accepts w c.key c.size → c.key ∉ w.table.keys) :
    Conserves w op res w' vs :=
  .of_moves h hnew (gain_within hin _).symm
    (by rw [List.append_nil]; exact w.table.keys_nodup)
    (fun k n ho ha hk => absurd hk (hup k n ho ha))
    (fun c ho ha hk => absurd hk (hput c ho ha))

end Moves

namespace Algo

variable {A : Algo κ τ ε α} {w w' v : World κ τ ε} {vs : List (List (Cache τ))}

/-! ## One call -/

theorem moves_roomFor (hw : Sound w) (size n : UInt64) :
    ∃ vs, Moves w (A.roomFor w size n) [] 0 vs := by
  unfold roomFor
  split_ifs
  · obtain ⟨vs, h, -⟩ := moves_shrink (P := A.toPolicy) hw (n - size)
    exact ⟨vs, h⟩
  · exact ⟨[], .nothing rfl rfl rfl⟩

theorem within_shrink {P : Policy κ τ ε} (need : UInt64) :
    (P.shrink w need).table.Within w.table := by
  intro r hr
  rw [Policy.shrink_table] at hr
  exact ⟨r, Policy.evict_subset hr, rfl, rfl⟩

theorem moves_insert {c : Cache τ} {t : Table κ} {x : ε} (h : Moves w v [] 0 vs)
    (hk : KeyExact c.key) (hsum : v.metaMem.cacheSize.toNat + c.size.toNat < 2 ^ 64)
    (hmem : c.key ∉ w.table.keys) (ht : v.table.insert (A.newRow x c) = some t) :
    Moves w (A.insertWorld v t c.size) [c.key] (gain w.table t c.key) vs := by
  have hkey : (A.newRow x c).key = c.key := by rw [newRow_key, hk.bound]
  have hrow : A.newRow x c ∈ t.rows := by
    rw [Table.insert_rows ht]
    simp
  have hgain : gain w.table t c.key = c.size.toNat := by
    unfold gain
    rw [if_pos (Table.mem_keys.2 ⟨_, hrow, hkey⟩), sizeOf_row hrow hkey, newRow_bytes,
      sizeOf_absent hmem]
    omega
  have hkeys : t.keys = v.table.keys ++ [c.key] := by
    rw [Table.keys, Table.insert_rows ht, List.map_append, List.map_singleton, hkey]
    rfl
  refine ⟨h.delivered, ?_, h.sizes, ?_⟩
  · have hperm := h.keys.append_right [c.key]
    rw [List.append_nil, List.append_assoc, ← hkeys] at hperm
    exact hperm
  · have hbal := h.balance
    rw [hgain]
    show ((v.metaMem.cacheSize + c.size).toNat : ℤ) = _
    rw [UInt64.toNat_add, Nat.mod_eq_of_lt hsum, Nat.cast_add]
    omega

theorem moves_resized {r : Row κ} {n : UInt64} {t : Table κ} (h : Moves w v [] 0 vs)
    (hv : Sound v) (hr : r ∈ w.table.rows) (hrv : r ∈ v.table.rows) (hn : n ≠ 0)
    (hsum : v.metaMem.cacheSize.toNat + (n.toNat - r.bytes) < 2 ^ 64)
    (ht : v.table.update r.key (Policy.setSize n) = some t)
    (hw' : w' = { (recount v (columnUInt64 r.size) n).tick 1 with table := t }) :
    Moves w w' [] (gain w.table w'.table r.key) vs ∧ Ends w' vs r.key n.toNat := by
  subst hw'
  have hrow : Policy.setSize n r ∈ t.rows := (Table.mem_update ht).2 ⟨r, hrv, if_pos rfl⟩
  have hset := setSize_bytes n r
  have hgain : gain w.table t r.key = n.toNat - r.bytes := by
    have hmem : r.key ∈ t.keys := Table.mem_keys.2 ⟨_, hrow, rfl⟩
    have hnew : t.sizeOf r.key = (Policy.setSize n r).bytes := sizeOf_row hrow rfl
    unfold gain
    rw [if_pos hmem, hnew, sizeOf_row hr rfl, hset]
  refine ⟨⟨h.delivered, ?_, h.sizes, ?_⟩, .inl ⟨_, hrow, rfl, hset⟩⟩
  · show (_ ++ t.keys).Perm _
    rw [Table.update_keys (f := Policy.setSize n) (fun _ => rfl) ht]
    exact h.keys
  · have hbal := h.balance
    have htot := (sound_resized hv hrv hn hsum ht).total
    have hvt : (v.table.rows.map Row.bytes).sum = v.metaMem.cacheSize.toNat := hv.total
    have hup := Table.update_sum Row.bytes ht hrv
    rw [hset] at hup
    rw [hgain, ← htot]
    show ((t.rows.map Row.bytes).sum : ℤ) = _
    omega

theorem moves_size {r : Row κ} {n : UInt64} {res : Except Error Unit} (hw : Sound w)
    (hr : r ∈ w.table.rows) (hn : n ≠ 0) (hq : w.fails = [])
    (hsum : w.metaMem.cacheSize.toNat + (n.toNat - r.bytes) < 2 ^ 64)
    (h : A.SizeEffect w r.key (columnUInt64 r.size) n res w') :
    ∃ vs, Moves w w' [] (gain w.table w'.table r.key) vs ∧ Ends w' vs r.key n.toNat := by
  cases h with
  | same heq =>
    rw [gain_within (within_refl _)]
    exact ⟨[], .nothing rfl rfl rfl, .inl ⟨r, hr, rfl, congrArg UInt64.toNat heq.symm⟩⟩
  | evictFailed D _ _ _ hf => simp [hq] at hf
  | aborted _ hmem =>
    obtain ⟨vs, hm, -⟩ := moves_shrink (P := A.toPolicy) hw (n - columnUInt64 r.size)
    have hgone : r.key ∉ (A.shrink w (n - columnUInt64 r.size)).table.keys :=
      Policy.not_mem_shrink hmem
    rw [gain_within (within_shrink _)]
    exact ⟨vs, hm, .inr ⟨hgone, hm.gone (Table.mem_keys.2 ⟨r, hr, rfl⟩) hgone⟩⟩
  | contentFailed _ _ hf => simp [hq] at hf
  | resized t hne hs _ ht =>
    obtain ⟨vs, hm⟩ := moves_roomFor (A := A) hw (columnUInt64 r.size) n
    have hle := roomFor_cacheSize_le (A := A) hw (columnUInt64 r.size) n
    exact ⟨vs, moves_resized hm (A.sound_roomFor hw _ _) hr (A.mem_roomFor hr hs) hn (by omega)
      ht rfl⟩

theorem inserted_false (c : Cache τ) (res : Except Error Unit) :
    (Op.put c : Op τ α).inserted (res.map fun _ => Ret.bool false) = [] := by
  rcases res with _ | _ <;> rfl

theorem inserted_update (k : Bytes) (n : UInt64) (res : Except Error (Ret τ)) :
    (Op.update k n : Op τ α).inserted res = [] := rfl

/-- Every call whose statements succeed conserves the files. -/
theorem effect_conserves {Good : Table κ → ε → Prop} (K : A.Keeps Good) {op : Op τ α}
    {res : Except Error (Ret τ)} (hI : Inv Good w) (hq : w.fails = []) (ho : A.Admits w op)
    (h : A.Effect w op res w') : ∃ vs, Conserves w op res w' vs := by
  have hw := hI.sound
  have hb := ho.1.bound
  have hno := ho.2
  have hres := effect_not_sqlite K hI.good hno hq h
  cases h with
  | rejected _ e hrej =>
    refine ⟨[], .within (.nothing rfl rfl rfl) ?_ (within_refl _) ?_ ?_⟩
    · cases op <;> rfl
    · rintro k n rfl ha
      exact absurd hrej (Accepts.not_rejects_update ha)
    · rintro c rfl ha
      exact absurd hrej (Accepts.not_rejects_put ha)
  | failed | putEvictFailed | putInsertFailed | putConflict | putRenewConflict | renewConflict
  | resizeFailed => exact absurd rfl (hres _)
  | put c t hc hmem ht =>
    obtain ⟨hsum, -⟩ := (hno hc).1 hmem
    rw [show bindText c.key = c.key from hb] at hmem
    obtain ⟨vs, hm, -⟩ := moves_shrink (P := A.toPolicy) (hw.tick 1) c.size
    have hle := Policy.shrink_cacheSize_le A.toPolicy (hw.tick 1) c.size
    rw [tick_metaMem] at hle
    have hins := moves_insert hm ho.1 (by omega) hmem ht
    refine ⟨vs, .of_moves (hins.after rfl rfl (within_refl _) rfl) rfl rfl ?_ (by nofun) ?_⟩
    · refine List.nodup_append.2 ⟨w.table.keys_nodup, List.nodup_singleton _, fun a ha b hb' => ?_⟩
      rw [List.mem_singleton] at hb'
      rintro rfl
      exact hmem (hb' ▸ ha)
    · rintro c' ⟨⟩ _ hk
      exact absurd hk hmem
  | putRenewed c r t hc hr hk hle ht =>
    have hin : t.Within w.table := within_touch ht
    have hkr : r.key = c.key := hk.trans hb
    have hkeys : t.keys = w.table.keys := touch_keys ht
    refine ⟨[], .of_moves (.nothing rfl hkeys rfl) rfl (gain_within hin _).symm
      (by rw [List.append_nil]; exact w.table.keys_nodup) (by nofun) ?_⟩
    rintro c' ⟨⟩ _ _
    refine .inl ⟨_, (Table.mem_update ht).2 ⟨r, hr, if_pos hk⟩, hkr, ?_⟩
    rw [sizeOf_row hr hkr]
    exact (max_eq_left (UInt64.le_iff_toNat_le.1 hle)).symm
  | putGrown c r t res' w' hc hr hk hlt ht hs =>
    have hin : t.Within w.table := within_touch ht
    have hkr : r.key = c.key := hk.trans hb
    have hkeys : t.keys = w.table.keys := touch_keys ht
    have hr' : touchRow A.touch w.metaMem.extra (A.arg c) r ∈ t.rows :=
      (Table.mem_update ht).2 ⟨r, hr, if_pos hk⟩
    obtain ⟨vs, hm, hend⟩ := moves_size (A.sound_renewWorld (hw.tick 1) ht) hr' hc.2.1 hq
      ((hno hc).2 r hr hk).1 hs
    have hgain : gain t w'.table r.key = gain w.table w'.table r.key := by
      have hsize : t.sizeOf r.key = r.bytes :=
        sizeOf_row (r := touchRow A.touch w.metaMem.extra (A.arg c) r) hr' rfl
      unfold gain
      rw [hsize, sizeOf_row hr rfl]
    refine ⟨vs, .of_moves (hm.after rfl hkeys hin rfl) (inserted_false c res') ?_
      (by rw [List.append_nil]; exact w.table.keys_nodup) (by nofun) ?_⟩
    · exact hgain.trans (congrArg _ hkr)
    · rintro c' ⟨⟩ _ _
      have hlt' : r.bytes < c.size.toNat := UInt64.lt_iff_toNat_lt.1 hlt
      rw [sizeOf_row hr hkr, max_eq_right hlt'.le, ← hkr]
      exact hend
  | renewMissing k a =>
    exact ⟨[], .within (.nothing rfl rfl rfl) rfl (within_refl _) (by nofun) (by nofun)⟩
  | renewed k a t _ _ ht =>
    have hkeys : t.keys = w.table.keys := touch_keys ht
    exact ⟨[], .within (.nothing rfl hkeys rfl) rfl (within_touch ht) (by nofun) (by nofun)⟩
  | updateMissing k n hc hmem =>
    rw [show bindText k = k from hb] at hmem
    refine ⟨[], .within (.nothing rfl rfl rfl) rfl (within_refl _) ?_ (by nofun)⟩
    rintro k' n' ⟨⟩ _
    exact hmem
  | updated k n r res' w' hc hr hk hs =>
    have hkr : r.key = k := hk.trans hb
    obtain ⟨vs, hm, hend⟩ := moves_size (hw.tick 1) hr hc.2.1 hq (hno hc r hr hk) hs
    refine ⟨vs, .of_moves (hm.after rfl rfl (within_refl _) rfl) (inserted_update k n _)
      (congrArg _ hkr) (by rw [List.append_nil]; exact w.table.keys_nodup) ?_ (by nofun)⟩
    rintro k' n' ⟨⟩ _ _
    exact hkr ▸ hend
  | resize n w₁ hn hw₁ =>
    subst hw₁
    have hw₁ : Sound { w with metaMem := { w.metaMem with maxSize := n } } := hw.of_eq rfl rfl hn
    obtain ⟨vs, hm, -⟩ := moves_shrink (P := A.toPolicy) hw₁ 0
    exact ⟨vs, .within (hm.after rfl rfl (within_refl _) rfl) rfl (within_shrink 0)
      (by nofun) (by nofun)⟩
  | query k =>
    exact ⟨[], .within (.nothing rfl rfl rfl) rfl (within_refl _) (by nofun) (by nofun)⟩
  | backup =>
    exact ⟨[], .within (.nothing rfl rfl rfl) rfl (within_refl _) (by nofun) (by nofun)⟩

end Algo

/-! ## Runs -/

theorem Lru.step_conserves {w : Lru.World} (hI : Inv Lru.Good w) (hq : w.fails = []) (op : Lru.Op)
    (ho : Lru.algo.Admits w op) : ∃ vs, Conserves w op (Lru.step w op).1 (Lru.step w op).2 vs := by
  rw [Lru.step, Lru.call_eq]
  exact Algo.effect_conserves Lru.keeps hI hq ho (Lru.algo.call_effect hI.sound op)

theorem Lfuda.step_conserves {w : Lfuda.World} (hI : Inv Lfuda.Good w) (hq : w.fails = [])
    (i : Lfuda.Resolver × Lfuda.Op) (ho : Lfuda.Admits w i) :
    ∃ vs, Conserves w i.2 (Lfuda.step w i).1 (Lfuda.step w i).2 vs := by
  rw [Lfuda.step, Lfuda.call_eq]
  exact Algo.effect_conserves (Lfuda.keeps i.1) hI hq ho ((Lfuda.algo i.1).call_effect hI.sound i.2)

/-- In both classes, whatever has been called before, a call conserves the files. -/
theorem call_conserves {M : UInt64} (hM : M ≠ 0) :
    (∀ (ops : List Lru.Op) (op : Lru.Op),
      RunOk Lru.step Lru.algo.Admits (Lru.start M) (ops ++ [op]) →
      let w := (run Lru.step (Lru.start M) ops).2
      ∃ vs, Conserves w op (Lru.step w op).1 (Lru.step w op).2 vs)
    ∧ ∀ (ops : List (Lfuda.Resolver × Lfuda.Op)) (i : Lfuda.Resolver × Lfuda.Op),
      RunOk Lfuda.step Lfuda.Admits (Lfuda.start M) (ops ++ [i]) →
      let w := (run Lfuda.step (Lfuda.start M) ops).2
      ∃ vs, Conserves w i.2 (Lfuda.step w i).1 (Lfuda.step w i).2 vs := by
  constructor
  · intro ops op hops
    obtain ⟨h1, h2⟩ := runOk_append.1 hops
    obtain ⟨hI, hq⟩ := Lru.run_inv hM ops h1
    exact Lru.step_conserves hI hq op h2.1
  · intro ops i hops
    obtain ⟨h1, h2⟩ := runOk_append.1 hops
    obtain ⟨hI, hq⟩ := Lfuda.run_inv hM ops h1
    exact Lfuda.step_conserves hI hq i h2.1

/-- The growth of the first file evicts it. -/
theorem call_conserves_ten :
    (let ops : List Lru.Op := [.put ⟨[97], 4, 0, [], ⟨0⟩⟩, .put ⟨[98], 4, 0, [], ⟨0⟩⟩]
      let op : Lru.Op := .update [97] 7
      let w := (run Lru.step (Lru.start 10) ops).2
      ∃ vs, Conserves w op (Lru.step w op).1 (Lru.step w op).2 vs)
    ∧ let ops : List (Lfuda.Resolver × Lfuda.Op) :=
        [(.first, .put ⟨[97], 4, 0, [], ⟨1, 0, 0⟩⟩), (.first, .put ⟨[98], 4, 0, [], ⟨2, 0, 0⟩⟩)]
      let i : Lfuda.Resolver × Lfuda.Op := (.first, .update [97] 7)
      let w := (run Lfuda.step (Lfuda.start 10) ops).2
      ∃ vs, Conserves w i.2 (Lfuda.step w i).1 (Lfuda.step w i).2 vs :=
  ⟨(call_conserves (M := 10) (by decide)).1 _ _ (by decide),
    (call_conserves (M := 10) (by decide)).2 _ _ (by decide)⟩

end XCache
