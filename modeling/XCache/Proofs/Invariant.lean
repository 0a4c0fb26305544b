import XCache.Invariant
import XCache.Proofs.Effects

/-!
# One call keeps the invariant

Evictions, an insertion, a renewal and a change of size keep `Good` and the accounting each, and
every effect of a call is made of them. The one exception is a content update that fails: it comes
after `cache_size` has been changed (`effect_sound`). Without failures a call keeps all of `Inv`
and returns or is rejected (`call_inv`).
-/

namespace XCache

variable {κ τ ε α : Type} [Columns κ]

namespace Policy

variable {P : Policy κ τ ε} {w : World κ τ ε} {need : UInt64}

theorem dropped_eq_nil (hw : Sound w) (hneed : need ≤ w.metaMem.maxSize)
    (h : P.dropped w need = []) : ¬ w.metaMem.cacheSize + need > w.metaMem.maxSize := by
  intro hover
  rcases hv : P.worst w.table with _ | r
  · exact worst_ne_none hw hneed hover hv
  · rw [dropped_over hover hv] at h
    cases h

theorem dropped_eq_cons {r : Row κ} {D : List (Row κ)} (h : P.dropped w need = r :: D) :
    P.worst w.table = some r ∧ D = P.dropped (P.evictOne w r) need := by
  by_cases hover : w.metaMem.cacheSize + need > w.metaMem.maxSize
  · rcases hv : P.worst w.table with _ | r'
    · have := dropped_isPrefix (P := P) (w := w) need
      rw [h, order_none hv] at this
      simp at this
    · rw [dropped_over hover hv] at h
      obtain ⟨rfl, rfl⟩ := List.cons.inj h
      exact ⟨rfl, rfl⟩
  · rw [dropped_fits hover] at h
    cases h

/-- After `remove_cache` the need fits, as far as the wrapped sum can tell. -/
theorem evict_dropped_stop (hw : Sound w) (hneed : need ≤ w.metaMem.maxSize) :
    ¬ (P.evict w (P.dropped w need)).metaMem.cacheSize + need
      > (P.evict w (P.dropped w need)).metaMem.maxSize := by
  suffices H : ∀ (D : List (Row κ)) (w : World κ τ ε), Sound w → need ≤ w.metaMem.maxSize →
      P.dropped w need = D →
      ¬ (P.evict w D).metaMem.cacheSize + need > (P.evict w D).metaMem.maxSize from
    H _ w hw hneed rfl
  intro D
  induction D with
  | nil => exact fun w hw hneed h => dropped_eq_nil hw hneed h
  | cons r D ih =>
    intro w hw hneed h
    obtain ⟨hr, hD⟩ := dropped_eq_cons h
    exact ih (P.evictOne w r) (sound_evictOne hw hr) hneed hD.symm

theorem evict_cacheSize_le (hw : Sound w) {D : List (Row κ)} (hD : D <+: P.order w.table) :
    (P.evict w D).metaMem.cacheSize.toNat ≤ w.metaMem.cacheSize.toNat := by
  rw [← hw.total, ← (sound_evict hw hD).total, evict_total hD]
  omega

/-- `remove_cache`, without wrapping: what holds of a world where the need fits, and of any other
world if it holds once the next row is evicted, holds with the rows that are dropped. -/
theorem dropped_induction {C : World κ τ ε → List (Row κ) → Prop}
    (hfits : ∀ w, Sound w → w.table.total + need.toNat ≤ w.metaMem.maxSize.toNat → C w [])
    (hover : ∀ w r D, Sound w → w.metaMem.maxSize.toNat < w.table.total + need.toNat →
      P.worst w.table = some r → C (P.evictOne w r) D → C w (r :: D))
    (hw : Sound w) (hneed : need ≤ w.metaMem.maxSize)
    (hsum : w.metaMem.cacheSize.toNat + need.toNat < 2 ^ 64) : C w (P.dropped w need) := by
  suffices H : ∀ (D : List (Row κ)) (w : World κ τ ε), Sound w → need ≤ w.metaMem.maxSize →
      w.metaMem.cacheSize.toNat + need.toNat < 2 ^ 64 → P.dropped w need = D → C w D from
    H _ w hw hneed hsum rfl
  have hiff : ∀ w : World κ τ ε, Sound w → w.metaMem.cacheSize.toNat + need.toNat < 2 ^ 64 →
      (w.metaMem.cacheSize + need > w.metaMem.maxSize
        ↔ w.metaMem.maxSize.toNat < w.table.total + need.toNat) := by
    intro w hw hsum
    rw [hw.total, gt_iff_lt, UInt64.lt_iff_toNat_lt, UInt64.toNat_add, Nat.mod_eq_of_lt hsum]
  intro D
  induction D with
  | nil =>
    intro w hw hneed hsum h
    exact hfits w hw (not_lt.1 (mt (hiff w hw hsum).2 (dropped_eq_nil hw hneed h)))
  | cons r D ih =>
    intro w hw hneed hsum h
    obtain ⟨hr, hD⟩ := dropped_eq_cons h
    have hgo : w.metaMem.cacheSize + need > w.metaMem.maxSize := by
      by_contra hstop
      rw [dropped_fits hstop] at h
      cases h
    have hle : (P.evictOne w r).metaMem.cacheSize.toNat ≤ w.metaMem.cacheSize.toNat :=
      evict_cacheSize_le (P := P) hw (D := [r])
        (by rw [order_some hr]; exact List.prefix_append [r] _)
    exact hover w r D hw ((hiff w hw hsum).1 hgo) hr
      (ih (P.evictOne w r) (sound_evictOne hw hr) hneed (by omega) hD.symm)

@[simp] theorem shrink_metaMem :
    (P.shrink w need).metaMem = (P.evict w (P.dropped w need)).metaMem := deliver_metaMem _

variable (P) in
theorem shrink_cacheSize_le (hw : Sound w) (need : UInt64) :
    (P.shrink w need).metaMem.cacheSize.toNat ≤ w.metaMem.cacheSize.toNat := by
  rw [shrink_metaMem]
  exact evict_cacheSize_le hw (dropped_isPrefix need)

variable (P) in
theorem shrink_room (hw : Sound w) (hneed : need ≤ w.metaMem.maxSize)
    (hsum : w.metaMem.cacheSize.toNat + need.toNat < 2 ^ 64) :
    (P.shrink w need).metaMem.cacheSize.toNat + need.toNat ≤ w.metaMem.maxSize.toNat := by
  have hle := shrink_cacheSize_le P hw need
  have hstop := UInt64.not_lt.1 (evict_dropped_stop (P := P) hw hneed)
  rw [evict_maxSize, ← shrink_metaMem, UInt64.le_iff_toNat_le, UInt64.toNat_add,
    Nat.mod_eq_of_lt (by omega)] at hstop
  exact hstop

end Policy

namespace Algo

variable {A : Algo κ τ ε α} {w : World κ τ ε}

theorem newRow_bytes (x : ε) (c : Cache τ) : (A.newRow x c).bytes = c.size.toNat := by
  show (columnUInt64 (bindUInt64 c.size)).toNat = c.size.toNat
  simp [columnUInt64, bindUInt64]

omit [Columns κ] in
theorem setSize_bytes (n : UInt64) (r : Row κ) : (Policy.setSize n r).bytes = n.toNat := by
  show (columnUInt64 (bindUInt64 n)).toNat = n.toNat
  simp [columnUInt64, bindUInt64]

/-! ## The accounting -/

theorem plain_insert {t t' : Table κ} {row : Row κ} (ht : t.Plain) (h : t.insert row = some t')
    (hk : KeyExact row.key) (hne : row.key ≠ []) (hpos : 0 < row.bytes) : t'.Plain := by
  have hmem : ∀ r ∈ t'.rows, r ∈ t.rows ∨ r = row := by
    intro r hr
    rw [Table.insert_rows h, List.mem_append, List.mem_singleton] at hr
    exact hr
  refine ⟨fun r hr => ?_, fun r hr => ?_, fun r hr => ?_⟩
  · rcases hmem r hr with hr | rfl
    · exact ht.exact r hr
    · exact hk
  · rcases hmem r hr with hr | rfl
    · exact ht.nonempty r hr
    · exact hne
  · rcases hmem r hr with hr | rfl
    · exact ht.pos r hr
    · exact hpos

theorem sound_insertWorld {t : Table κ} {c : Cache τ} {x : ε} (hw : Sound w)
    (hc : KeyExact c.key) (hne : c.key ≠ []) (hpos : c.size ≠ 0)
    (hsum : w.metaMem.cacheSize.toNat + c.size.toNat < 2 ^ 64)
    (ht : w.table.insert (A.newRow x c) = some t) : Sound (A.insertWorld w t c.size) := by
  have hbytes : (A.newRow x c).bytes = c.size.toNat := newRow_bytes x c
  have hkey : (A.newRow x c).key = c.key := (A.newRow_key x c).trans hc.bound
  have h0 : 0 < c.size.toNat := by
    rw [Nat.pos_iff_ne_zero, Ne, ← UInt64.toNat_zero, UInt64.toNat_inj]
    exact hpos
  refine ⟨plain_insert hw.plain ht (hkey ▸ hc) (hkey ▸ hne) (hbytes ▸ h0), ?_, hw.limit⟩
  show t.total = (w.metaMem.cacheSize + c.size).toNat
  rw [UInt64.toNat_add, Nat.mod_eq_of_lt hsum, ← hw.total, Table.total, Table.insert_rows ht,
    List.map_append, List.sum_append, List.map_singleton, List.sum_singleton, hbytes]
  rfl

/-- What `update_size` makes of `cache_size` is the new sum of the sizes. -/
theorem toNat_recount {r : Row κ} {n : UInt64} (hw : Sound w) (hr : r ∈ w.table.rows)
    (hsum : w.metaMem.cacheSize.toNat + (n.toNat - r.bytes) < 2 ^ 64) :
    (recount w (columnUInt64 r.size) n).metaMem.cacheSize.toNat
      = w.metaMem.cacheSize.toNat - r.bytes + n.toNat := by
  have hle := Table.bytes_le_total hr
  rw [hw.total] at hle
  show (w.metaMem.cacheSize - columnUInt64 r.size + n).toNat = _
  rw [UInt64.toNat_add, UInt64.toNat_sub_of_le _ _ (UInt64.le_iff_toNat_le.2 hle)]
  have : (columnUInt64 r.size).toNat = r.bytes := rfl
  omega

theorem sound_resized {t : Table κ} {r : Row κ} {n : UInt64} (hw : Sound w) (hr : r ∈ w.table.rows)
    (hn : n ≠ 0) (hsum : w.metaMem.cacheSize.toNat + (n.toNat - r.bytes) < 2 ^ 64)
    (ht : w.table.update r.key (Policy.setSize n) = some t) :
    Sound { (recount w (columnUInt64 r.size) n).tick 1 with table := t } := by
  have hle := Table.bytes_le_total hr
  rw [hw.total] at hle
  have hnew := toNat_recount hw hr hsum
  have h0 : 0 < n.toNat := by
    rw [Nat.pos_iff_ne_zero, Ne, ← UInt64.toNat_zero, UInt64.toNat_inj]
    exact hn
  have hmem : ∀ r' ∈ t.rows, (∃ r₀ ∈ w.table.rows, r'.key = r₀.key) ∧ 0 < r'.bytes := by
    intro r' hr'
    obtain ⟨r₀, h₀, rfl⟩ := (Table.mem_update ht).1 hr'
    split_ifs
    · exact ⟨⟨r₀, h₀, rfl⟩, h0⟩
    · exact ⟨⟨r₀, h₀, rfl⟩, hw.plain.pos r₀ h₀⟩
  refine ⟨⟨fun r' hr' => ?_, fun r' hr' => ?_, fun r' hr' => (hmem r' hr').2⟩, ?_, hw.limit⟩
  · obtain ⟨⟨r₀, h₀, hk⟩, -⟩ := hmem r' hr'
    exact hk ▸ hw.plain.exact r₀ h₀
  · obtain ⟨⟨r₀, h₀, hk⟩, -⟩ := hmem r' hr'
    exact hk ▸ hw.plain.nonempty r₀ h₀
  · show t.total = (recount w (columnUInt64 r.size) n).metaMem.cacheSize.toNat
    have hsum' := Table.update_sum Row.bytes ht hr
    have hset := setSize_bytes n r
    have htot := hw.total
    rw [hset] at hsum'
    unfold Table.total at htot ⊢
    omega

section Size

variable {r : Row κ} {n : UInt64} {res : Except Error Unit} {w' : World κ τ ε}

theorem roomFor_cacheSize_le (hw : Sound w) (size n : UInt64) :
    (A.roomFor w size n).metaMem.cacheSize.toNat ≤ w.metaMem.cacheSize.toNat := by
  unfold roomFor
  split_ifs
  · exact Policy.shrink_cacheSize_le A.toPolicy hw _
  · exact le_rfl

@[simp] theorem roomFor_maxSize (size n : UInt64) :
    (A.roomFor w size n).metaMem.maxSize = w.metaMem.maxSize := by
  unfold roomFor
  split_ifs <;> simp

/-- What a change of size leaves: if the content update is the statement that fails, a meta record
that counts the new size already. -/
theorem sizeEffect_sound (hw : Sound w) (hr : r ∈ w.table.rows) (hn : n ≠ 0)
    (hsum : w.metaMem.cacheSize.toNat + (n.toNat - r.bytes) < 2 ^ 64)
    (h : A.SizeEffect w r.key (columnUInt64 r.size) n res w') :
    Sound w' ∨ A.SizeFails w r n ∧ w'.table.Plain := by
  cases h with
  | same => exact .inl hw
  | evictFailed D _ hD =>
    exact .inl ((Policy.sound_evict hw (hD.trans (Policy.dropped_isPrefix _))).tick 1)
  | aborted => exact .inl (Policy.sound_shrink hw _)
  | contentFailed hne hs hfail => exact .inr ⟨⟨hne, hs, hfail⟩, (A.sound_roomFor hw _ _).plain⟩
  | resized t hne hs _ ht =>
    have hle := roomFor_cacheSize_le (A := A) hw (columnUInt64 r.size) n
    exact .inl (sound_resized (A.sound_roomFor hw _ _) (A.mem_roomFor hr hs) hn (by omega) ht)

theorem sizeEffect_within (hw : Sound w) (hr : r ∈ w.table.rows)
    (hmax : n ≤ w.metaMem.maxSize) (hin : w.metaMem.cacheSize ≤ w.metaMem.maxSize)
    (hsum : w.metaMem.cacheSize.toNat + (n.toNat - r.bytes) < 2 ^ 64) (hq : w.fails = [])
    (h : A.SizeEffect w r.key (columnUInt64 r.size) n res w') :
    w'.metaMem.cacheSize ≤ w'.metaMem.maxSize := by
  rw [UInt64.le_iff_toNat_le] at hmax hin ⊢
  cases h with
  | same => exact hin
  | evictFailed D _ _ _ hfail => simp [hq] at hfail
  | aborted =>
    have := Policy.shrink_cacheSize_le A.toPolicy hw (n - columnUInt64 r.size)
    rw [Policy.shrink_maxSize]
    omega
  | contentFailed _ _ hfail => simp [hq] at hfail
  | resized t hne hs _ ht =>
    have hmem := Table.bytes_le_total (A.mem_roomFor hr hs)
    rw [(A.sound_roomFor hw (columnUInt64 r.size) n).total] at hmem
    have hle := roomFor_cacheSize_le (A := A) hw (columnUInt64 r.size) n
    have hnew := toNat_recount (n := n) (A.sound_roomFor hw (columnUInt64 r.size) n)
      (A.mem_roomFor hr hs) (by omega)
    show (recount (A.roomFor w (columnUInt64 r.size) n) (columnUInt64 r.size)
      n).metaMem.cacheSize.toNat ≤ (A.roomFor w (columnUInt64 r.size) n).metaMem.maxSize.toNat
    rw [hnew, roomFor_maxSize]
    by_cases hgrow : n > columnUInt64 r.size
    · have hneed := Row.growth hgrow
      have hfit : n - columnUInt64 r.size ≤ w.metaMem.maxSize :=
        Row.growth_le hgrow (UInt64.le_iff_toNat_le.2 hmax)
      have hroom := Policy.shrink_room A.toPolicy hw hfit (by omega)
      rw [roomFor, if_pos hgrow] at hmem ⊢
      have := Row.bytes_lt.1 hgrow
      omega
    · have := not_lt.1 (mt Row.bytes_lt.2 hgrow)
      omega

theorem sizeEffect_ok (hq : w.fails = [])
    (h : A.SizeEffect w r.key (columnUInt64 r.size) n res w') : res = .ok () := by
  cases h with
  | same => rfl
  | evictFailed D _ _ _ hfail => simp [hq] at hfail
  | aborted => rfl
  | contentFailed _ _ hfail => simp [hq] at hfail
  | resized => rfl

end Size

/-! ## The policy's own invariant -/

section Keeps

variable {Good : Table κ → ε → Prop} {w' : World κ τ ε}

theorem Keeps.evictAll (K : A.Keeps Good) {D : List (Row κ)}
    (hg : Good w.table w.metaMem.extra) (hD : D <+: A.order w.table) :
    Good (A.evict w D).table (A.evict w D).metaMem.extra := by
  induction D generalizing w with
  | nil => exact hg
  | cons r D ih =>
    obtain ⟨hr, hD⟩ := Policy.prefix_order_cons hD
    exact ih (w := A.evictOne w r) (K.evict hg hr) hD

theorem Keeps.shrink (K : A.Keeps Good) (need : UInt64) (hg : Good w.table w.metaMem.extra) :
    Good (A.shrink w need).table (A.shrink w need).metaMem.extra := by
  rw [Policy.shrink_table, Policy.shrink_metaMem]
  exact K.evictAll hg (Policy.dropped_isPrefix need)

theorem Keeps.roomFor (K : A.Keeps Good) (size n : UInt64) (hg : Good w.table w.metaMem.extra) :
    Good (A.roomFor w size n).table (A.roomFor w size n).metaMem.extra := by
  unfold Algo.roomFor
  split_ifs
  · exact K.shrink _ hg
  · exact hg

theorem Keeps.sizeEffect (K : A.Keeps Good) {key : Bytes} {size n : UInt64}
    {res : Except Error Unit} (hg : Good w.table w.metaMem.extra)
    (h : A.SizeEffect w key size n res w') : Good w'.table w'.metaMem.extra := by
  cases h with
  | same => exact hg
  | evictFailed D _ hD => exact K.evictAll hg (hD.trans (Policy.dropped_isPrefix _))
  | aborted => exact K.shrink _ hg
  | contentFailed => exact K.roomFor size n hg
  | resized t _ _ _ ht => exact K.setSize (K.roomFor size n hg) ht

/-- A call that does not overflow keeps `Good`, whichever statement fails. -/
theorem Keeps.effect (K : A.Keeps Good) {op : Op τ α} {res : Except Error (Ret τ)}
    (hg : Good w.table w.metaMem.extra) (ho : A.NoOverflow w op) (h : A.Effect w op res w') :
    Good w'.table w'.metaMem.extra := by
  cases h with
  | rejected => exact hg
  | failed => exact hg
  | putEvictFailed c D _ _ hD =>
    exact K.evictAll (w := w.tick 1) hg (hD.trans (Policy.dropped_isPrefix _))
  | putInsertFailed c => exact K.shrink (w := w.tick 1) c.size hg
  | putConflict c => exact K.shrink (w := w.tick 1) c.size hg
  | put c t hc hk ht => exact K.insert (K.shrink (w := w.tick 1) c.size hg) ((ho hc).1 hk).2 ht
  | putRenewConflict => exact hg
  | putRenewed c r t hc hr hk _ ht => exact K.renew hg hr ((ho hc).2 r hr hk).2 (hk ▸ ht)
  | putGrown c r t res' w' hc hr hk _ ht hs =>
    exact K.sizeEffect (K.renew hg hr ((ho hc).2 r hr hk).2 (hk ▸ ht)) hs
  | renewMissing => exact hg
  | renewConflict => exact hg
  | renewed k a t _ hmem ht =>
    obtain ⟨r, hr, hk⟩ := Table.mem_keys.1 hmem
    exact K.renew hg hr (ho r hr hk) (hk ▸ ht)
  | updateMissing => exact hg
  | updated k n r res' w' _ _ _ hs => exact K.sizeEffect (w := w.tick 1) hg hs
  | resizeFailed n D w₁ _ hw₁ hD =>
    subst hw₁
    exact K.evictAll (w := { w with metaMem := { w.metaMem with maxSize := n } }) hg
      (hD.trans (Policy.dropped_isPrefix _))
  | resize n w₁ _ hw₁ =>
    subst hw₁
    exact K.shrink (w := { w with metaMem := { w.metaMem with maxSize := n } }) 0 hg
  | query => exact hg
  | backup => exact hg

end Keeps

/-! ## Calls -/

section Call

variable {op : Op τ α} {res : Except Error (Ret τ)} {w' : World κ τ ε}

theorem NoOverflow.sums (h : A.NoOverflow w op) : SumsFit w op := by
  cases op with
  | put c => exact fun hc => ⟨fun hk => ((h hc).1 hk).1, fun r hr hk => ((h hc).2 r hr hk).1⟩
  | update k n => exact h
  | _ => trivial

/-- The accounting survives every call that does not overflow, whichever statement fails, unless
it is the content update. -/
theorem effect_sound_or (hw : Sound w) (hk : KeyExact op.key) (ho : SumsFit w op)
    (h : A.Effect w op res w') : Sound w' ∨ A.ContentFails w op ∧ w'.table.Plain := by
  cases h with
  | rejected => exact .inl hw
  | failed _ n => exact .inl (hw.tick _)
  | putEvictFailed c D _ _ hD =>
    have hpre := hD.trans (Policy.dropped_isPrefix _)
    exact .inl ((Policy.sound_evict (hw.tick 1) hpre).tick 1)
  | putInsertFailed c => exact .inl ((Policy.sound_shrink (hw.tick 1) _).tick 1)
  | putConflict c => exact .inl ((Policy.sound_shrink (hw.tick 1) _).tick 1)
  | put c t hc hmem ht =>
    have hle := Policy.shrink_cacheSize_le A.toPolicy (hw.tick 1) c.size
    have hsum := (ho hc).1 hmem
    refine .inl (sound_insertWorld (Policy.sound_shrink (hw.tick 1) _) hk hc.1 hc.2.1 ?_ ht)
    rw [tick_metaMem] at hle
    omega
  | putRenewConflict => exact .inl (hw.tick _)
  | putRenewed c r t _ _ _ _ ht => exact .inl (A.sound_renewWorld (hw.tick 1) ht)
  | putGrown c r t res' w' hc hr hrk hgrow ht hs =>
    have hr' : touchRow A.touch w.metaMem.extra (A.arg c) r ∈ t.rows :=
      (Table.mem_update ht).2 ⟨r, hr, if_pos hrk⟩
    exact (sizeEffect_sound (A.sound_renewWorld (hw.tick 1) ht) hr' hc.2.1 ((ho hc).2 r hr hrk)
      hs).imp_right fun hf => ⟨⟨hc, r, hr, hrk, hgrow, t, ht, hf.1⟩, hf.2⟩
  | renewMissing => exact .inl (hw.tick _)
  | renewConflict => exact .inl (hw.tick _)
  | renewed k a t _ _ ht => exact .inl (A.sound_renewWorld hw ht)
  | updateMissing => exact .inl (hw.tick _)
  | updated k n r res' w' hc hr hrk hs =>
    exact (sizeEffect_sound (hw.tick 1) hr hc.2.1 (ho hc r hr hrk) hs).imp_right
      fun hf => ⟨⟨hc, r, hr, hrk, hf.1⟩, hf.2⟩
  | resizeFailed n D w₁ hn hw₁ hD =>
    subst hw₁
    have hw₁ : Sound { w with metaMem := { w.metaMem with maxSize := n } } := hw.of_eq rfl rfl hn
    exact .inl ((Policy.sound_evict hw₁ (hD.trans (Policy.dropped_isPrefix _))).tick 1)
  | resize n w₁ hn hw₁ =>
    subst hw₁
    have hw₁ : Sound { w with metaMem := { w.metaMem with maxSize := n } } := hw.of_eq rfl rfl hn
    exact .inl (Policy.sound_shrink hw₁ 0)
  | query => exact .inl (hw.tick _)
  | backup => exact .inl (hw.of_eq rfl rfl hw.limit)

theorem effect_sound (hw : Sound w) (hk : KeyExact op.key) (ho : SumsFit w op)
    (hok : ¬ A.ContentFails w op) (h : A.Effect w op res w') : Sound w' :=
  (effect_sound_or hw hk ho h).resolve_right fun hf => hok hf.1

theorem effect_plain (hw : Sound w) (hk : KeyExact op.key) (ho : SumsFit w op)
    (h : A.Effect w op res w') : w'.table.Plain :=
  (effect_sound_or hw hk ho h).elim Sound.plain And.right

theorem not_contentFails (hq : w.fails = []) : ¬ A.ContentFails w op := by
  intro h
  cases op with
  | put c =>
    obtain ⟨-, r, -, -, -, t, -, -, -, hf⟩ := h
    rw [show (A.renewWorld (w.tick 1) t).fails = [] from hq] at hf
    cases hf
  | update k n =>
    obtain ⟨-, r, -, -, -, -, hf⟩ := h
    rw [tick_fails, hq] at hf
    cases hf
  | renew _ _ => exact h
  | resize _ => exact h
  | query _ => exact h
  | backup => exact h

theorem effect_within (hw : Sound w) (ho : SumsFit w op)
    (hin : w.metaMem.cacheSize ≤ w.metaMem.maxSize) (hq : w.fails = [])
    (h : A.Effect w op res w') : w'.metaMem.cacheSize ≤ w'.metaMem.maxSize := by
  cases h with
  | rejected => exact hin
  | failed _ n => exact hin
  | putEvictFailed c D _ _ _ _ hfail => simp [hq] at hfail
  | putInsertFailed c _ _ hfail => simp [hq] at hfail
  | putConflict c =>
    have hle := Policy.shrink_cacheSize_le A.toPolicy (hw.tick 1) c.size
    rw [UInt64.le_iff_toNat_le] at hin ⊢
    rw [tick_metaMem, Policy.shrink_maxSize, tick_metaMem]
    exact hle.trans hin
  | put c t hc hmem ht =>
    have hsum := (ho hc).1 hmem
    have hroom := Policy.shrink_room A.toPolicy (hw.tick 1) hc.2.2 hsum
    have hlt := w.metaMem.maxSize.toNat_lt
    show (A.shrink (w.tick 1) c.size).metaMem.cacheSize + c.size
      ≤ (A.shrink (w.tick 1) c.size).metaMem.maxSize
    rw [Policy.shrink_maxSize, UInt64.le_iff_toNat_le, UInt64.toNat_add]
    rw [tick_metaMem] at hroom ⊢
    rw [Nat.mod_eq_of_lt (by omega)]
    exact hroom
  | putRenewConflict => exact hin
  | putRenewed => exact hin
  | putGrown c r t res' w' hc hr hrk hgrow ht hs =>
    have hr' : touchRow A.touch w.metaMem.extra (A.arg c) r ∈ t.rows :=
      (Table.mem_update ht).2 ⟨r, hr, if_pos hrk⟩
    exact sizeEffect_within (A.sound_renewWorld (hw.tick 1) ht) hr' hc.2.2 hin
      ((ho hc).2 r hr hrk) hq hs
  | renewMissing => exact hin
  | renewConflict => exact hin
  | renewed => exact hin
  | updateMissing => exact hin
  | updated k n r res' w' hc hr hrk hs =>
    exact sizeEffect_within (hw.tick 1) hr hc.2.2 hin (ho hc r hr hrk) hq hs
  | resizeFailed n D w₁ hn hw₁ hD _ hfail => simp [hq] at hfail
  | resize n w₁ hn hw₁ =>
    subst hw₁
    have hw₁ : Sound { w with metaMem := { w.metaMem with maxSize := n } } := hw.of_eq rfl rfl hn
    have hlt := w.metaMem.cacheSize.toNat_lt
    have hroom := Policy.shrink_room A.toPolicy hw₁ UInt64.zero_le
      (by rw [UInt64.toNat_zero]; exact hlt)
    rw [UInt64.le_iff_toNat_le, Policy.shrink_maxSize]
    rw [UInt64.toNat_zero, Nat.add_zero] at hroom
    exact hroom
  | query => exact hin
  | backup => exact hin

/-- What a call of a run without failures may throw. -/
theorem effect_result {Good : Table κ → ε → Prop} (K : A.Keeps Good)
    (hg : Good w.table w.metaMem.extra) (ho : A.NoOverflow w op) (hq : w.fails = [])
    (h : A.Effect w op res w') :
    (∃ v, res = .ok v) ∨ ∃ e, res = .error (.algo e) ∧ A.Rejects w op e := by
  cases h with
  | rejected _ e he => exact .inr ⟨e, rfl, he⟩
  | failed _ n _ hfail => simp [hq] at hfail
  | putEvictFailed c D _ _ _ _ hfail => simp [hq] at hfail
  | putInsertFailed c _ _ hfail => simp [hq] at hfail
  | putConflict c hc hmem hn =>
    have hnot : bindText c.key ∉ (A.shrink (w.tick 1) c.size).table.keys := by
      intro hmem'
      obtain ⟨r, hr, hrk⟩ := Table.mem_keys.1 hmem'
      rw [Policy.shrink_table] at hr
      exact hmem (Table.mem_keys.2 ⟨r, Policy.evict_subset (w := w.tick 1) hr, hrk⟩)
    obtain ⟨t, ht⟩ := K.insert_isSome (K.shrink (w := w.tick 1) c.size hg) ((ho hc).1 hmem).2 hnot
    rw [hn] at ht
    cases ht
  | put => exact .inl ⟨_, rfl⟩
  | putRenewConflict c hc hmem hn =>
    obtain ⟨r, hr, hrk⟩ := Table.mem_keys.1 hmem
    obtain ⟨t, ht⟩ := K.renew_isSome (a := A.arg c) hg hr ((ho hc).2 r hr hrk).2
    rw [hrk, hn] at ht
    cases ht
  | putRenewed => exact .inl ⟨_, rfl⟩
  | putGrown c r t res' w' _ _ _ _ _ hs =>
    rw [sizeEffect_ok (w := A.renewWorld (w.tick 1) t) hq hs]
    exact .inl ⟨_, rfl⟩
  | renewMissing => exact .inl ⟨_, rfl⟩
  | renewConflict k a _ hmem hn =>
    obtain ⟨r, hr, hrk⟩ := Table.mem_keys.1 hmem
    obtain ⟨t, ht⟩ := K.renew_isSome (a := a) hg hr (ho r hr hrk)
    rw [hrk, hn] at ht
    cases ht
  | renewed => exact .inl ⟨_, rfl⟩
  | updateMissing => exact .inl ⟨_, rfl⟩
  | updated k n r res' w' _ _ _ hs =>
    rw [sizeEffect_ok (w := w.tick 1) hq hs]
    exact .inl ⟨_, rfl⟩
  | resizeFailed n D w₁ hn hw₁ hD _ hfail => simp [hq] at hfail
  | resize => exact .inl ⟨_, rfl⟩
  | query => exact .inl ⟨_, rfl⟩
  | backup => exact .inl ⟨_, rfl⟩

/-- Of a run without failures, none comes from a statement. -/
theorem effect_not_sqlite {Good : Table κ → ε → Prop} (K : A.Keeps Good)
    (hg : Good w.table w.metaMem.extra) (ho : A.NoOverflow w op) (hq : w.fails = [])
    (h : A.Effect w op res w') (e : SqliteFailure) : res ≠ .error (.sqlite e) := by
  rintro rfl
  rcases effect_result K hg ho hq h with ⟨v, hv⟩ | ⟨e', he, -⟩
  · cases hv
  · cases he

theorem sizeEffect_fails {key : Bytes} {size n : UInt64} {res : Except Error Unit}
    (h : A.SizeEffect w key size n res w') : w'.fails = w.fails := by
  cases h with
  | same => rfl
  | evictFailed => exact Policy.evict_fails _ _
  | aborted => exact Policy.shrink_fails
  | contentFailed => exact A.roomFor_fails _ _
  | resized => exact A.roomFor_fails _ _

theorem effect_fails (h : A.Effect w op res w') : w'.fails = w.fails := by
  cases h with
  | putEvictFailed => exact Policy.evict_fails (w.tick 1) _
  | putInsertFailed => exact Policy.shrink_fails (w := w.tick 1)
  | putConflict => exact Policy.shrink_fails (w := w.tick 1)
  | put => exact Policy.shrink_fails (w := w.tick 1)
  | putGrown c r t res' w' _ _ _ _ _ hs =>
    exact sizeEffect_fails (w := A.renewWorld (w.tick 1) t) hs
  | updated k n r res' w' _ _ _ hs => exact sizeEffect_fails (w := w.tick 1) hs
  | resizeFailed n D w₁ _ hw₁ => subst hw₁; exact Policy.evict_fails _ _
  | resize n w₁ _ hw₁ => subst hw₁; exact Policy.shrink_fails
  | _ => rfl

theorem Accepts.not_rejects_put {c : Cache τ} {e : AlgoError} (hc : Accepts w c.key c.size) :
    ¬ A.Rejects w (.put c) e := by
  rintro (⟨h, -⟩ | ⟨-, h | h, -⟩)
  · exact hc.1 h
  · exact hc.2.1 h
  · exact UInt64.not_le.2 h hc.2.2

theorem Accepts.not_rejects_update {k : Bytes} {n : UInt64} {e : AlgoError} (hc : Accepts w k n) :
    ¬ A.Rejects w (.update k n) e := by
  rintro (⟨h, -⟩ | ⟨-, h | h, -⟩)
  · exact hc.1 h
  · exact hc.2.1 h
  · exact UInt64.not_le.2 h hc.2.2

theorem Rejects.isArgument {e : AlgoError} (h : A.Rejects w op e) : e.IsArgument := by
  cases op with
  | put c =>
    rcases h with ⟨-, rfl⟩ | ⟨-, -, rfl⟩
    · exact A.nullKey_isArgument
    · trivial
  | update k n =>
    rcases h with ⟨-, rfl⟩ | ⟨-, -, rfl⟩
    · exact A.nullKey_isArgument
    · trivial
  | renew k a =>
    obtain ⟨-, rfl⟩ := h
    trivial
  | resize n =>
    obtain ⟨-, rfl⟩ := h
    trivial
  | query k =>
    obtain ⟨-, rfl⟩ := h
    trivial
  | backup => exact h.elim

theorem inv_empty {Good : Table κ → ε → Prop} {M : UInt64} {x : ε} (hM : M ≠ 0)
    (ht : w.table = Table.empty) (hm : w.metaMem = ⟨0, M, x⟩) (hg : Good Table.empty x) :
    Inv Good w := by
  have hrow : ∀ r ∈ w.table.rows, False := by
    intro r hr
    rw [ht] at hr
    cases hr
  refine ⟨⟨⟨fun r hr => (hrow r hr).elim, fun r hr => (hrow r hr).elim,
    fun r hr => (hrow r hr).elim⟩, ?_, ?_⟩, ?_, ?_⟩
  · rw [ht, hm]
    rfl
  · rw [hm]
    exact hM
  · rw [ht, hm]
    exact hg
  · rw [hm]
    exact UInt64.zero_le

/-- A call whose statements succeed keeps the invariant, and returns or is rejected. -/
theorem call_inv {Good : Table κ → ε → Prop} (K : A.Keeps Good) (hI : Inv Good w)
    (hq : w.fails = []) (ho : A.Admits w op) :
    Inv Good (outcome (A.call op) w).2 ∧ (outcome (A.call op) w).2.fails = []
      ∧ Answers (outcome (A.call op) w).1 := by
  have h := A.call_effect hI.sound op
  have hs := effect_sound hI.sound ho.1 (NoOverflow.sums ho.2) (not_contentFails hq) h
  have hg := K.effect hI.good ho.2 h
  have hin := effect_within hI.sound (NoOverflow.sums ho.2) hI.within hq h
  refine ⟨⟨hs, hg, hin⟩, (effect_fails h).trans hq, ?_⟩
  rcases effect_result K hI.good ho.2 hq h with hv | ⟨e, he, hrej⟩
  · exact .inl hv
  · exact .inr ⟨e, he, hrej.isArgument⟩

theorem renew_ok {key : Bytes} {a : α} {t : Table κ} (hw : w.table.Plain) (hq : w.fails = [])
    (hne : key ≠ []) (hmem : bindText key ∈ w.table.keys)
    (ht : w.table.update (bindText key) (touchRow A.touch w.metaMem.extra a) = some t) :
    outcome (A.renew key a) w = (.ok true, A.renewWorld w t) := by
  have h : RenewEffect A.touch A.touched A.cost w key a _ _ := A.renew_effect key a hw
  rcases ho : outcome (A.renew key a) w with ⟨res, w'⟩
  rw [ho] at h
  cases h with
  | nullKey h0 => exact absurd h0 hne
  | failed n _ hf => simp [hq] at hf
  | missing _ h0 => exact absurd hmem h0
  | conflict _ _ hn =>
    rw [hn] at ht
    cases ht
  | renewed t' _ _ ht' =>
    rw [ht] at ht'
    cases ht'
    rfl

theorem put_resident {c : Cache τ} {r : Row κ} {t : Table κ} (hw : Sound w) (hq : w.fails = [])
    (hc : Accepts w c.key c.size) (hr : r ∈ w.table.rows) (hk : r.key = bindText c.key)
    (ht : w.table.update r.key (touchRow A.touch w.metaMem.extra (A.arg c)) = some t) :
    outcome (A.put c) w =
      if c.size > columnUInt64 r.size then
        outcome (do
          A.updateSize (A.getRow r) c.size
          return false) (A.renewWorld (w.tick 1) t)
      else (.ok false, A.renewWorld (w.tick 1) t) := by
  have hfind : w.table.find (bindText c.key) = some r := Table.find_some.2 ⟨hr, hk⟩
  have hquery : outcome (A.querySingle c.key) w = (.ok (A.getRow r), w.tick 1) := by
    have hrule : wp (A.querySingle c.key)
        (fun res w' => res = .ok (A.getRow r) ∧ w' = w.tick 1) w :=
      Policy.wp_querySingle.2 ⟨fun hf => by simp [hq] at hf, fun _ => ⟨by rw [hfind]; rfl, rfl⟩⟩
    exact Prod.ext hrule.1 hrule.2
  have hkey : (A.getRow r).key = r.key := hw.plain.getRow_key hr
  have hne : (A.getRow r).key ≠ [] := hw.plain.getRow_key_ne hr
  have hb : bindText (A.getRow r).key = r.key := by rw [hkey]; exact (hw.plain.exact r hr).bound
  have hrenew := renew_ok (A := A) (w := w.tick 1) (a := A.arg c) hw.plain hq hne
    (by rw [hb]; exact Table.mem_keys.2 ⟨r, hr, rfl⟩) (by rw [hb]; exact ht)
  have hz : ¬ (c.size = 0 ∨ c.size > w.metaMem.maxSize) :=
    not_or.2 ⟨hc.2.1, UInt64.not_lt.2 hc.2.2⟩
  unfold put
  rw [outcome_bind_throwIf hc.1, outcome_bind_ok (outcome_get w), outcome_bind_throwIf hz,
    outcome_bind_ok hquery, if_neg hne, outcome_bind_ok hrenew,
    outcome_bind_throwIf Bool.noConfusion]
  split_ifs with h1 h2 h2
  · rfl
  · exact absurd h1 h2
  · exact absurd h2 h1
  · rfl

end Call

end Algo

end XCache
