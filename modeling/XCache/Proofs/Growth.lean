import XCache.Proofs.Conservation

/-!
# A row that grows

`update_size` evicts before it resizes, and the eviction may reach the very row it is for. It does
exactly if that row, at its new size, does not fit with the rows behind it in the order of eviction
(`dropped_iff`). A `put` of the LRU renews the row first, so there are none behind it, and it stays
(`put_leaves_key`). An `update` may lose its row, and reports success all the same
(`update_truthful_iff`).
-/

namespace XCache

variable {κ τ ε α : Type} [Columns κ]

namespace Policy

variable (P : Policy κ τ ε)

/-- The rows behind the row of `key` in the order of eviction. -/
def behind (t : Table κ) (key : Bytes) : List (Row κ) :=
  ((P.order t).dropWhile fun r => r.key ≠ key).tail

/-- `update_size` is told that the row it was to change has been evicted, and gives up. -/
def Aborts (w : World κ τ ε) (cache : Cache τ) (newSize : UInt64) : Prop :=
  newSize > cache.size
    ∧ (outcome (P.removeCache (newSize - cache.size) cache.key) w).1 = .ok true

variable {P} {w : World κ τ ε} {need : UInt64} {r : Row κ} {D E : List (Row κ)}

theorem over_of_dropped (h : P.dropped w need ≠ []) : Over need w := by
  by_contra hfit
  exact h (dropped_fits hfit)

theorem dropped_concat (h : D ++ [r] <+: P.dropped w need) :
    Over need (P.evict w D) ∧ P.worst (P.evict w D).table = some r := by
  induction D generalizing w with
  | nil =>
    obtain ⟨E, hE⟩ := h
    have hcons : P.dropped w need = r :: E := hE.symm
    exact ⟨over_of_dropped (P := P) (by simp [hcons]), (dropped_eq_cons hcons).1⟩
  | cons r' D ih =>
    obtain ⟨E, hE⟩ := h
    have hcons : P.dropped w need = r' :: (D ++ [r] ++ E) := hE.symm
    obtain ⟨-, hD⟩ := dropped_eq_cons hcons
    exact ih (w := P.evictOne w r') ⟨E, hD⟩

/-- The rows before an evicted row. -/
theorem dropped_split (hr : r ∈ w.table.rows) (h : r.key ∈ (P.dropped w need).map Row.key) :
    ∃ D, D ++ [r] <+: P.dropped w need := by
  obtain ⟨r', hr', hk⟩ := List.mem_map.1 h
  have hmem := mem_order.1 ((dropped_isPrefix need).subset hr')
  obtain rfl := Table.eq_of_key hmem hr hk
  obtain ⟨D, E, hDE⟩ := List.append_of_mem hr'
  exact ⟨D, E, by rw [hDE]; simp⟩

theorem behind_eq (h : P.order w.table = D ++ r :: E) : P.behind w.table r.key = E := by
  have hnd : ((D ++ r :: E).map Row.key).Nodup := by
    rw [← h]
    exact ((order_perm _ w.table rfl).map Row.key).nodup_iff.2 w.table.keys_nodup
  have hD : ∀ r' ∈ D, decide (r'.key ≠ r.key) = true := by
    intro r' hr'
    rw [List.map_append, List.map_cons] at hnd
    have := (List.nodup_append.1 hnd).2.2 _ (List.mem_map_of_mem hr') _ List.mem_cons_self
    simpa using this
  rw [behind, h, List.dropWhile_append_of_pos hD, List.dropWhile_cons_of_neg (by simp)]
  rfl

theorem cacheSize_rest (hw : Sound w) (h : P.order w.table = D ++ E) :
    (P.evict w D).metaMem.cacheSize.toNat = (E.map Row.bytes).sum := by
  have hpre : D <+: P.order w.table := ⟨E, h.symm⟩
  have hrest := order_evict hpre
  rw [h] at hrest
  rw [← (sound_evict hw hpre).total, ← total_order, ← List.append_cancel_left hrest]

theorem shrink_spares (hw : Sound w) {key : Bytes}
    (h : key ∉ (P.dropped w need).map Row.key) :
    ∃ vs, (P.shrink w need).delivered = w.delivered ++ vs ∧ ∀ e ∈ vs.flatten, e.key ≠ key := by
  obtain ⟨vs, hm, hflat⟩ := moves_shrink (P := P) hw need
  refine ⟨vs, hm.delivered, fun e he hek => ?_⟩
  rw [hflat] at he
  obtain ⟨v, hv, rfl⟩ := List.mem_map.1 he
  have hvr := mem_order.1 ((dropped_isPrefix need).subset hv)
  rw [hw.plain.getRow_key hvr] at hek
  exact h (List.mem_map.2 ⟨v, hv, hek⟩)

/-- A row is evicted to make room for a need exactly if the need does not fit with the row and
those behind it. -/
theorem dropped_iff (hw : Sound w) (hr : r ∈ w.table.rows) (hneed : need ≤ w.metaMem.maxSize)
    (hsum : w.metaMem.cacheSize.toNat + need.toNat < 2 ^ 64) :
    r.key ∈ (P.dropped w need).map Row.key ↔
      w.metaMem.maxSize.toNat
        < r.bytes + ((P.behind w.table r.key).map Row.bytes).sum + need.toNat := by
  have hover : ∀ {D}, D <+: P.order w.table → (Over need (P.evict w D) ↔
      w.metaMem.maxSize.toNat < (P.evict w D).metaMem.cacheSize.toNat + need.toNat) := by
    intro D hD
    have hle := evict_cacheSize_le hw hD
    rw [Over, gt_iff_lt, UInt64.lt_iff_toNat_lt, UInt64.toNat_add, Nat.mod_eq_of_lt (by omega),
      evict_maxSize]
  constructor
  · intro hmem
    obtain ⟨D, hD⟩ := dropped_split hr hmem
    obtain ⟨E, hE⟩ := hD.trans (dropped_isPrefix need)
    rw [List.append_assoc, List.singleton_append] at hE
    have hlt := (hover ⟨r :: E, hE⟩).1 (dropped_concat hD).1
    rw [cacheSize_rest hw hE.symm, List.map_cons, List.sum_cons] at hlt
    rw [behind_eq hE.symm]
    exact hlt
  · intro hlt
    obtain ⟨D, E, hDE⟩ := List.append_of_mem (mem_order.2 hr)
    rw [behind_eq hDE] at hlt
    by_contra hmem
    -- the rows that are evicted all come before the row
    have hbefore : P.dropped w need <+: D := by
      have hpre : D ++ [r] <+: P.order w.table := ⟨E, by rw [hDE]; simp⟩
      rcases List.prefix_or_prefix_of_prefix (dropped_isPrefix (P := P) need) hpre with h | h
      · rcases List.prefix_concat_iff.1 h with h | h
        · exact absurd (by rw [h]; simp) hmem
        · exact h
      · exact absurd (List.mem_map_of_mem (h.subset (by simp))) hmem
    obtain ⟨F, rfl⟩ := hbefore
    have hstop := evict_dropped_stop (P := P) hw hneed
    have hcs := cacheSize_rest hw (D := P.dropped w need) (E := F ++ r :: E)
      (hDE.trans (List.append_assoc _ _ _))
    refine hstop ((hover (dropped_isPrefix need)).2 ?_)
    rw [hcs, List.map_append, List.sum_append, List.map_cons, List.sum_cons]
    omega

end Policy

namespace Algo

variable (A : Algo κ τ ε α)

/-- The call gives up in `update_size`, because its row has been evicted. -/
def Aborts (w : World κ τ ε) : Op τ α → Prop
  | .put c =>
    let entry := A.getSingle (w.table.find (bindText c.key))
    entry.key ≠ [] ∧ A.toPolicy.Aborts (outcome (A.renew entry.key (A.arg c)) (w.tick 1)).2
      entry c.size
  | .update k n =>
    let entry := A.getSingle (w.table.find (bindText k))
    entry.key ≠ [] ∧ A.toPolicy.Aborts (w.tick 1) entry n
  | .renew _ _ => False
  | .resize _ => False
  | .query _ => False
  | .backup => False

end Algo

/-! ## A `put` of the LRU -/

namespace Lru

variable {w w' : World} {need : UInt64} {r : Row} {c : Cache}

theorem newest_survives (hw : Sound w) (hr : r ∈ w.table.rows)
    (hnew : ∀ r' ∈ w.table.rows, seq r' ≤ seq r)
    (hfit : r.bytes + need.toNat ≤ w.metaMem.maxSize.toNat) :
    r.key ∉ (policy.dropped w need).map Row.key := by
  intro hmem
  obtain ⟨D, hD⟩ := Policy.dropped_split hr hmem
  obtain ⟨hover, hold⟩ := Policy.dropped_concat hD
  have hpre : D <+: policy.order w.table :=
    (List.prefix_append D [r]).trans (hD.trans (Policy.dropped_isPrefix need))
  -- nothing is older than the newest row but itself: it is the last one left
  have hlast : ∀ r' ∈ (policy.evict w D).table.rows, r' = r := by
    intro r' hr'
    have hle := old_le hold r' hr'
    have hge := hnew r' (Policy.evict_subset hr')
    exact seq_inj (Policy.evict_subset hr') hr (by omega)
  have hmem' := policy.worst_mem hold
  have htotal := Table.delete_sum Row.bytes hmem'
  have hnone : ((policy.evict w D).table.delete r.key).rows = [] := by
    refine List.eq_nil_iff_forall_not_mem.2 fun r' hr' => ?_
    obtain ⟨hr', hk⟩ := Table.mem_delete.1 hr'
    exact hk (congrArg Row.key (hlast r' hr'))
  have hcs := (Policy.sound_evict hw hpre).total
  rw [Table.total, htotal, hnone] at hcs
  have hlt : (policy.evict w D).metaMem.maxSize.toNat
      < ((policy.evict w D).metaMem.cacheSize + need).toNat := UInt64.lt_iff_toNat_lt.1 hover
  have hmod := Nat.mod_le ((policy.evict w D).metaMem.cacheSize.toNat + need.toNat) (2 ^ 64)
  rw [Policy.evict_maxSize, UInt64.toNat_add] at hlt
  simp at hcs
  omega

/-- What a `put` that passes the checks does with the row of its key. -/
structure Stays (w : World) (c : Cache) (res : Except Error Ret) (w' : World) : Prop where
  returns : res = .ok (.bool (decide (c.key ∉ w.table.keys)))
  resident : ∃ r ∈ w'.table.rows, r.key = c.key
    ∧ r.bytes = max (w.table.sizeOf c.key) c.size.toNat
    ∧ ∀ r' ∈ w'.table.rows, r'.key ≠ c.key → seq r' < seq r
  spared : ∃ vs, w'.delivered = w.delivered ++ vs ∧ ∀ e ∈ vs.flatten, e.key ≠ c.key
  completes : ¬ algo.Aborts w (.put c)

theorem newer (hg : Good w.table w.metaMem.extra) (hr : r ∈ w.table.rows)
    (hx : seq r = w.metaMem.extra.toInt) :
    ∀ r' ∈ w.table.rows, r'.key ≠ r.key → seq r' < seq r := by
  intro r' hr' hk
  have hle := hg.le r' hr'
  have hne : seq r' ≠ seq r := fun h => hk (congrArg Row.key (seq_inj hr' hr h))
  omega

theorem renewed_row {t : Table} (hr : r ∈ w.table.rows)
    (ht : w.table.update r.key (touchRow algo.touch w.metaMem.extra ()) = some t) :
    ∃ r₁ ∈ t.rows, r₁.key = r.key ∧ r₁.bytes = r.bytes
      ∧ seq r₁ = (w.metaMem.extra + 1).toInt :=
  ⟨_, (Table.mem_update ht).2 ⟨r, hr, if_pos rfl⟩, rfl, rfl, rfl⟩

theorem put_survives {t : Table} (hI : Inv Good w) (ho : algo.Admits w (.put c))
    (hc : Algo.Accepts w c.key c.size) (hr : r ∈ w.table.rows) (hk : r.key = c.key)
    (ht : w.table.update r.key (touchRow algo.touch w.metaMem.extra ()) = some t)
    (hgrow : columnUInt64 r.size < c.size) :
    Sound (algo.renewWorld (w.tick 1) t)
      ∧ Good (algo.renewWorld (w.tick 1) t).table (algo.renewWorld (w.tick 1) t).metaMem.extra
      ∧ c.key ∉ (policy.dropped (algo.renewWorld (w.tick 1) t)
          (c.size - columnUInt64 r.size)).map Row.key := by
  have hsound : Sound (algo.renewWorld (w.tick 1) t) :=
    algo.sound_renewWorld (hI.sound.tick 1) ht
  have hover := ((ho.2 hc).2 r hr (hk.trans ho.1.bound.symm)).2
  have hgood : Good t (w.metaMem.extra + 1) := keeps.renew hI.good hr hover ht
  obtain ⟨r₁, hr₁, hk₁, hb₁, hs₁⟩ := renewed_row hr ht
  refine ⟨hsound, hgood, ?_⟩
  rw [← hk, ← hk₁]
  refine newest_survives hsound hr₁ (fun r' hr' => ?_) ?_
  · rw [hs₁]
    exact hgood.le r' hr'
  · have hsub := Row.growth hgrow
    have hmax := UInt64.le_iff_toNat_le.1 hc.2.2
    have hlt := Row.bytes_lt.1 hgrow
    show r₁.bytes + (c.size - columnUInt64 r.size).toNat ≤ w.metaMem.maxSize.toNat
    omega

theorem put_not_aborts (hI : Inv Good w) (hq : w.fails = []) (ho : algo.Admits w (.put c))
    (hc : Algo.Accepts w c.key c.size) : ¬ algo.Aborts w (.put c) := by
  rintro ⟨hne, hgrow, hflag⟩
  have hb := ho.1.bound
  rcases Policy.getSingle_cases (P := algo.toPolicy) hI.sound.plain.keyed (bindText c.key) with
    ⟨h0, -⟩ | ⟨r, hr, hk, hne', hb', hek, hez⟩
  · exact hne h0
  · obtain ⟨t, ht⟩ := keeps.renew_isSome (a := ()) hI.good hr ((ho.2 hc).2 r hr hk).2
    have hren := algo.renew_ok (w := w.tick 1) (a := ()) (t := t) hI.sound.plain hq hne'
      (by rw [hb']; exact Table.mem_keys.2 ⟨r, hr, rfl⟩) (by rw [hb']; exact ht)
    have hkc : r.key = c.key := hk.trans hb
    rw [hez] at hgrow
    rw [hek, hez, show outcome (algo.renew r.key (algo.arg c)) (w.tick 1) = _ from hren] at hflag
    obtain ⟨hsound, -, hspared⟩ := put_survives hI ho hc hr hkc ht hgrow
    have hneed : c.size - columnUInt64 r.size ≤ w.metaMem.maxSize := Row.growth_le hgrow hc.2.2
    rcases Policy.removeCache_sound (P := algo.toPolicy) r.key hsound hneed with
      ⟨h, -⟩ | ⟨D, -, -, -, hf, -⟩
    · rw [hflag] at h
      refine hspared ?_
      obtain ⟨v, hv, hvk⟩ := List.any_eq_true.1 (Except.ok.inj h).symm
      exact hkc ▸ List.mem_map.2 ⟨v, hv, of_decide_eq_true hvk⟩
    · have : (algo.renewWorld (w.tick 1) t).fails = [] := hq
      simp [this] at hf

/-- A row that grows and is not evicted is there with its new size, the sequence is what it was, and
the row is not handed out. -/
theorem grown_row {v : World} {t : Table} {size n : UInt64} (hv : Sound v) (hr : r ∈ v.table.rows)
    (hz : columnUInt64 r.size = size) (hgrow : size < n)
    (hspared : r.key ∉ (policy.dropped v (n - size)).map Row.key)
    (ht : (algo.roomFor v size n).table.update r.key (Policy.setSize n) = some t) :
    Policy.setSize n r ∈ t.rows ∧ (algo.roomFor v size n).metaMem.extra = v.metaMem.extra
      ∧ ∃ vs, (algo.roomFor v size n).delivered = v.delivered ++ vs
        ∧ ∀ e ∈ vs.flatten, e.key ≠ r.key := by
  have hroom : algo.roomFor v size n = algo.shrink v (n - size) := by
    rw [Algo.roomFor, if_pos hgrow]
  subst hz
  have hleft := algo.mem_roomFor (w := v) hr fun _ => hspared
  refine ⟨(Table.mem_update ht).2 ⟨r, hleft, if_pos rfl⟩, ?_, ?_⟩
  · rw [hroom]
    exact shrink_extra _ _
  · rw [hroom]
    exact Policy.shrink_spares hv hspared

theorem put_stays (hI : Inv Good w) (hq : w.fails = []) (ho : algo.Admits w (.put c))
    (hc : Algo.Accepts w c.key c.size) :
    Stays w c (step w (.put c)).1 (step w (.put c)).2 := by
  have habort := put_not_aborts hI hq ho hc
  have h := algo.call_effect hI.sound (.put c)
  have hres := Algo.effect_not_sqlite keeps hI.good ho.2 hq h
  have hinv := (step_inv w (.put c) ⟨hI, hq⟩ ho).1.1
  rw [← call_eq, show outcome (call (.put c)) w = step w (.put c) from rfl] at h hres
  have hb : bindText c.key = c.key := ho.1.bound
  generalize (step w (.put c)).1 = res at h hres ⊢
  generalize (step w (.put c)).2 = w' at h hinv ⊢
  have hnew : ∀ {r : Row}, r ∈ w'.table.rows → r.key = c.key →
      seq r = w'.metaMem.extra.toInt → ∀ r' ∈ w'.table.rows, r'.key ≠ c.key → seq r' < seq r :=
    fun hr hk hx r' hr' hk' => newer hinv.good hr hx r' hr' (hk ▸ hk')
  cases h with
  | rejected _ e hrej => exact absurd hrej (Algo.Accepts.not_rejects_put hc)
  | failed | putEvictFailed | putInsertFailed | putConflict | putRenewConflict =>
    exact absurd rfl (hres _)
  | put _ t _ hmem ht =>
    rw [hb] at hmem
    have hrow : algo.newRow (algo.shrink (w.tick 1) c.size).metaMem.extra c ∈ t.rows := by
      rw [Table.insert_rows ht]
      simp
    have hkey : (algo.newRow (algo.shrink (w.tick 1) c.size).metaMem.extra c).key = c.key := by
      rw [Algo.newRow_key, hb]
    have hspared : c.key ∉ (algo.dropped (w.tick 1) c.size).map Row.key := by
      intro h
      obtain ⟨v, hv, hvk⟩ := List.mem_map.1 h
      have hvr := Policy.mem_order.1 ((Policy.dropped_isPrefix c.size).subset hv)
      exact hmem (Table.mem_keys.2 ⟨v, hvr, hvk⟩)
    refine ⟨by simp [hmem], ⟨_, hrow, hkey, ?_, hnew hrow hkey rfl⟩,
      Policy.shrink_spares (w := w.tick 1) (hI.sound.tick 1) hspared, habort⟩
    rw [sizeOf_absent hmem, Algo.newRow_bytes, Nat.zero_max]
  | putRenewed _ r t _ hr hk hle ht =>
    have hkc := hk.trans hb
    have hmem : c.key ∈ w.table.keys := Table.mem_keys.2 ⟨r, hr, hkc⟩
    rw [← hk] at ht
    obtain ⟨r₁, hr₁, hk₁, hb₁, hs₁⟩ := renewed_row hr ht
    refine ⟨by simp [hmem], ⟨r₁, hr₁, hk₁.trans hkc, ?_, hnew hr₁ (hk₁.trans hkc) hs₁⟩,
      ⟨[], (List.append_nil _).symm, by simp⟩, habort⟩
    rw [hb₁, sizeOf_row hr hkc]
    exact (max_eq_left (UInt64.le_iff_toNat_le.1 hle)).symm
  | putGrown _ r t res' _ _ hr hk hgrow ht hs =>
    have hkc := hk.trans hb
    have hmem : c.key ∈ w.table.keys := Table.mem_keys.2 ⟨r, hr, hkc⟩
    rw [← hk] at ht
    obtain ⟨hsound, -, hspared⟩ := put_survives hI ho hc hr hkc ht hgrow
    obtain ⟨r₁, hr₁, hk₁, hb₁, hs₁⟩ := renewed_row hr ht
    have hlt := Row.bytes_lt.1 hgrow
    have hv : (algo.renewWorld (w.tick 1) t).fails = [] := hq
    cases hs with
    | same heq => exact absurd (heq ▸ hgrow) (UInt64.lt_irrefl _)
    | evictFailed D _ _ _ hf => simp [hv] at hf
    | aborted _ hdrop => exact absurd (hkc ▸ hdrop) hspared
    | contentFailed _ _ hf => simp [hv] at hf
    | resized t' _ _ _ ht' =>
      have hz : columnUInt64 r₁.size = columnUInt64 r.size := UInt64.toNat_inj.1 hb₁
      rw [← hkc, ← hk₁] at hspared
      rw [← hk₁] at ht'
      obtain ⟨hrow, hextra, hsent⟩ := grown_row hsound hr₁ hz hgrow hspared ht'
      refine ⟨by simp [hmem, Except.map], ⟨_, hrow, hk₁.trans hkc, ?_,
        hnew hrow (hk₁.trans hkc) ?_⟩, ?_, habort⟩
      · rw [Algo.setSize_bytes, sizeOf_row hr hkc, max_eq_right hlt.le]
      · exact hs₁.trans (congrArg Int64.toInt hextra.symm)
      · rw [← hkc, ← hk₁]
        exact hsent

/-- Whatever has been called before: a `put` that passes the checks returns, and leaves its key in
the cache, newest of all, with the larger of the two sizes. -/
theorem put_leaves_key {M : UInt64} (hM : M ≠ 0) (ops : List Op) (c : Cache)
    (hops : RunOk step algo.Admits (start M) (ops ++ [.put c]))
    (hc : Algo.Accepts (run step (start M) ops).2 c.key c.size) :
    let w := (run step (start M) ops).2
    Stays w c (step w (.put c)).1 (step w (.put c)).2 := by
  obtain ⟨h1, h2⟩ := runOk_append.1 hops
  obtain ⟨hI, hq⟩ := run_inv hM ops h1
  exact put_stays hI hq h2.1 hc

/-- The first file grows from 4 to 10 bytes, and evicts the second. -/
theorem put_leaves_key_ten :
    let w := (run step (start 10) [.put ⟨[97], 4, 0, [], ⟨0⟩⟩, .put ⟨[98], 4, 0, [], ⟨0⟩⟩]).2
    let c : Cache := ⟨[97], 10, 0, [], ⟨0⟩⟩
    Stays w c (step w (.put c)).1 (step w (.put c)).2 :=
  put_leaves_key (M := 10) (by decide) _ _ (by decide) (by decide)

end Lru

end XCache
