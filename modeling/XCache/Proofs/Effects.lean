import XCache.Proofs.Course

/-!
# Every call has one of its effects

`call_effect` inverts a call made in a sound world: whatever the arguments and whichever statement
fails, its result and the world it leaves are those of a constructor of `Effect`. Of the courses a
call may take, those that find the database inconsistent are closed: none of the `db error` texts
is among the effects.
-/

namespace XCache

variable {κ τ ε α : Type} [Columns κ]

section Sound

variable {w : World κ τ ε}

theorem Sound.of_eq {w' : World κ τ ε} (h : Sound w) (ht : w'.table = w.table)
    (hm : w'.metaMem.cacheSize = w.metaMem.cacheSize) (hl : w'.metaMem.maxSize ≠ 0) : Sound w' :=
  ⟨ht ▸ h.plain, by rw [ht, hm, h.total], hl⟩

theorem Sound.tick (h : Sound w) (n : ℕ) : Sound (w.tick n) := h.of_eq rfl rfl h.limit

theorem Sound.faulty (h : Sound w) (fails : List ℕ) : Sound (w.faulty fails) :=
  h.of_eq rfl rfl h.limit

theorem Sound.deliver (h : Sound w) (l : List (Cache τ)) : Sound (w.deliver l) :=
  h.of_eq (deliver_table l) (by rw [deliver_metaMem]) (by rw [deliver_metaMem]; exact h.limit)

end Sound

namespace Policy

variable {P : Policy κ τ ε} {w : World κ τ ε} {need : UInt64}

theorem sound_shrink (h : Sound w) (need : UInt64) : Sound (P.shrink w need) :=
  (sound_evict h (dropped_isPrefix need)).deliver _

@[simp] theorem shrink_table : (P.shrink w need).table = (P.evict w (P.dropped w need)).table :=
  deliver_table _

@[simp] theorem shrink_fails : (P.shrink w need).fails = w.fails := by simp [shrink]

@[simp] theorem shrink_maxSize : (P.shrink w need).metaMem.maxSize = w.metaMem.maxSize := by
  simp [shrink]

@[simp] theorem shrink_metaRow : (P.shrink w need).metaRow = w.metaRow := by simp [shrink]

@[simp] theorem shrink_clock :
    (P.shrink w need).clock = w.clock + (P.dropped w need).length := by
  simp [shrink]

theorem shrink_delivered : (P.shrink w need).delivered = w.delivered ++
    if P.dropped w need = [] then [] else [(P.dropped w need).map P.getRow] := by
  simp [shrink, deliver_delivered]

/-- A key whose row is dropped is gone. -/
theorem not_mem_shrink {key : Bytes} (h : key ∈ (P.dropped w need).map Row.key) :
    key ∉ (P.shrink w need).table.keys := by
  intro hk
  obtain ⟨r, hr, hkey⟩ := Table.mem_keys.1 hk
  rw [shrink_table, mem_evict, hkey] at hr
  exact hr.2 h

@[simp] theorem dropped_tick (n : ℕ) : P.dropped (w.tick n) need = P.dropped w need := rfl

end Policy

namespace Algo

variable (A : Algo κ τ ε α) {w : World κ τ ε}

theorem sound_roomFor (h : Sound w) (size newSize : UInt64) : Sound (A.roomFor w size newSize) := by
  unfold roomFor
  split_ifs
  · exact Policy.sound_shrink h _
  · exact h

@[simp] theorem roomFor_fails (size n : UInt64) :
    (A.roomFor w size n).fails = w.fails := by
  unfold roomFor
  split_ifs <;> simp

/-- A surviving row is still there when room has been made. -/
theorem mem_roomFor {r : Row κ} {newSize : UInt64} (hr : r ∈ w.table.rows)
    (hs : A.Survives w r.key (columnUInt64 r.size) newSize) :
    r ∈ (A.roomFor w (columnUInt64 r.size) newSize).table.rows := by
  unfold roomFor
  split_ifs with h
  · rw [Policy.shrink_table, Policy.mem_evict]
    exact ⟨hr, hs h⟩
  · exact hr

/-- A renewal changes no key and no size. -/
theorem sound_renewWorld {t : Table κ} {key : Bytes} {x : ε} {a : α} (hw : Sound w)
    (ht : w.table.update key (touchRow A.touch x a) = some t) : Sound (A.renewWorld w t) := by
  have hrow : ∀ r ∈ t.rows, ∃ r' ∈ w.table.rows, r.key = r'.key ∧ r.bytes = r'.bytes := by
    intro r hr
    obtain ⟨r', hr', rfl⟩ := (Table.mem_update ht).1 hr
    refine ⟨r', hr', ?_⟩
    split_ifs <;> exact ⟨rfl, rfl⟩
  refine ⟨⟨fun r hr => ?_, fun r hr => ?_, fun r hr => ?_⟩, ?_, hw.limit⟩
  · obtain ⟨r', hr', hk, -⟩ := hrow r hr
    exact hk ▸ hw.plain.exact r' hr'
  · obtain ⟨r', hr', hk, -⟩ := hrow r hr
    exact hk ▸ hw.plain.nonempty r' hr'
  · obtain ⟨r', hr', -, hb⟩ := hrow r hr
    exact hb ▸ hw.plain.pos r' hr'
  · refine Eq.trans ?_ hw.total
    show (t.rows.map Row.bytes).sum = (w.table.rows.map Row.bytes).sum
    rw [Table.update_rows ht, List.map_map]
    congr 1
    refine List.map_congr_left fun r _ => ?_
    rw [Function.comp_apply]
    split_ifs <;> rfl

/-- `update_size` in a sound world. -/
theorem sizeCourse_effect {r : Row κ} {n : UInt64} {res : Except Error Unit} {w' : World κ τ ε}
    (hw : Sound w) (hr : r ∈ w.table.rows) (hn : n ≤ w.metaMem.maxSize)
    (h : A.SizeCourse w r.key (columnUInt64 r.size) n res w') :
    A.SizeEffect w r.key (columnUInt64 r.size) n res w' := by
  have hneed : n > columnUInt64 r.size → n - columnUInt64 r.size ≤ w.metaMem.maxSize :=
    fun hgrow => Row.growth_le hgrow hn
  have hroom : ∀ {v}, A.Roomed w r.key (columnUInt64 r.size) n v →
      v = A.roomFor w (columnUInt64 r.size) n ∧ A.Survives w r.key (columnUInt64 r.size) n := by
    rintro v (⟨hgrow, D, hD, hmem, rfl⟩ | ⟨hgrow, rfl⟩)
    · refine ⟨by rw [hD.shrink, roomFor, if_pos hgrow], fun _ => ?_⟩
      rw [hD.dropped]
      exact hmem
    · exact ⟨by rw [roomFor, if_neg hgrow], fun h => absurd h hgrow⟩
  cases h with
  | same h => exact .same h
  | removal e w' hgrow h =>
    rcases h.sound hw (hneed hgrow) with ⟨h0, -⟩ | ⟨D, hD, hne, he, hfail, rfl⟩
    · cases h0
    · cases he
      exact .evictFailed D hgrow hD hne hfail
  | aborted D hgrow hD hmem =>
    rw [hD.shrink]
    refine .aborted hgrow ?_
    rw [hD.dropped]
    exact hmem
  | mismatch v hne hv hlt =>
    obtain ⟨rfl, hs⟩ := hroom hv
    have hle := (A.sound_roomFor hw (columnUInt64 r.size) n).size_le (A.mem_roomFor hr hs)
    exact absurd hlt (UInt64.not_lt.2 hle)
  | contentFailed v hne hv _ hfail =>
    obtain ⟨rfl, hs⟩ := hroom hv
    rw [roomFor_fails] at hfail
    exact .contentFailed hne hs hfail
  | resized v t hne hv _ hok ht =>
    obtain ⟨rfl, hs⟩ := hroom hv
    rw [roomFor_fails] at hok
    exact .resized t hne hs hok ht

/-- A course in a sound world is an effect. -/
theorem Course.effect {op : Op τ α} {res : Except Error (Ret τ)} {w' : World κ τ ε}
    (h : A.Course w op res w') (hw : Sound w) : A.Effect w op res w' := by
  cases h with
  | rejected _ e h => exact .rejected _ e h
  | failed _ n hn hfail => exact .failed _ n hn hfail
  | putRemoval c e w' hc hk h =>
    rcases h.sound (hw.tick 1) hc.2.2 with ⟨h0, -⟩ | ⟨D, hD, hne, he, hfail, rfl⟩
    · cases h0
    · cases he
      exact .putEvictFailed c D hc hk hD hne hfail
  | putInsertFailed c D hc hk hD hfail =>
    rw [hD.shrink] at hfail ⊢
    rw [Policy.shrink_fails] at hfail
    exact .putInsertFailed c hc hk hfail
  | putConflict c D hc hk hD hn =>
    rw [hD.shrink] at hn ⊢
    exact .putConflict c hc hk hn
  | put c D t hc hk hD ht =>
    rw [hD.shrink] at ht ⊢
    exact .put c t hc hk ht
  | putRenewConflict c hc hk hn => exact .putRenewConflict c hc hk hn
  | putRenewed c r t hc hr hk hle ht => exact .putRenewed c r t hc hr hk hle ht
  | putGrown c r t res w' hc hr hk hgrow ht hs =>
    have hr' : touchRow A.touch w.metaMem.extra (A.arg c) r ∈ t.rows :=
      (Table.mem_update ht).2 ⟨r, hr, if_pos hk⟩
    exact .putGrown c r t res w' hc hr hk hgrow ht
      (A.sizeCourse_effect (r := touchRow A.touch w.metaMem.extra (A.arg c) r)
        (A.sound_renewWorld (hw.tick 1) ht) hr' hc.2.2 hs)
  | renewMissing k a h1 h2 => exact .renewMissing k a h1 h2
  | renewConflict k a h1 h2 hn => exact .renewConflict k a h1 h2 hn
  | renewed k a t h1 h2 ht => exact .renewed k a t h1 h2 ht
  | updateMissing k n hc hk => exact .updateMissing k n hc hk
  | updated k n r res w' hc hr hk hs =>
    exact .updated k n r res w' hc hr hk (A.sizeCourse_effect (hw.tick 1) hr hc.2.2 hs)
  | resize n w₁ res w' hn hw₁ h =>
    have hsound : Sound w₁ := by
      subst hw₁
      exact hw.of_eq rfl rfl hn
    have hclock : w₁.clock = w.clock ∧ w₁.fails = w.fails := by
      subst hw₁
      exact ⟨rfl, rfl⟩
    rcases h.sound hsound UInt64.zero_le with ⟨rfl, rfl⟩ | ⟨D, hD, hne, rfl, hfail, rfl⟩
    · exact .resize n w₁ hn hw₁
    · rw [hclock.1, hclock.2] at hfail
      exact .resizeFailed n D w₁ hn hw₁ hD hne hfail
  | query k hk => exact .query k hk
  | backup => exact .backup

/-- A call in a sound world has one of its effects. -/
theorem call_effect (hw : Sound w) (op : Op τ α) :
    A.Effect w op (outcome (A.call op) w).1 (outcome (A.call op) w).2 :=
  (A.call_course (fun _ key a => A.renew_effect key a hw.plain) hw.plain.keyed op).effect A hw

end Algo

end XCache
