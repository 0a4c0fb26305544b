import XCache.Proofs.Capacity
import XCache.Proofs.LfudaIdle

/-!
# A scan does not flush what is popular

Files put once and not accessed again get an `eff` of `global_aging + 1`, so it takes all of them
that the cache has room for to raise `global_aging` by one. While that is below the `eff` of a row
that has been accessed more often, an eviction takes one of the others, and uses up one of those
whose `eff` is `global_aging`, or raises it (`evictOne_guard`). A row stays through as many
evictions as that makes (`scan_keeps`); what it takes to make it leave is in `idle_leaves`.
-/

namespace XCache

namespace Lfuda

variable {R : Resolver} {n S : ℕ} {row : Row} {w w' : World}

/-- The other rows whose `eff` is `global_aging`. -/
def standing (row : Row) (w : World) : ℕ :=
  w.table.rows.countP fun r => eff r = w.metaMem.extra.toNat ∧ r.key ≠ row.key

/-- How many evictions there must be before the row is the next, where there are always `n` others
to evict. -/
def guard (n : ℕ) (row : Row) (w : World) : ℕ :=
  if w.metaMem.extra.toNat < eff row then
    (eff row - (w.metaMem.extra.toNat + 1)) * n + standing row w
  else 0

/-- The row is there, among others that have been put and not accessed, and all are small. -/
structure Scanned (S : ℕ) (row : Row) (w : World) : Prop where
  there : row ∈ w.table.rows
  common : ∀ r ∈ w.table.rows, r.key ≠ row.key → eff r ≤ w.metaMem.extra.toNat + 1
  small : ∀ r ∈ w.table.rows, r.bytes ≤ S

section Evict

theorem standing_delete {r : Row} (hr : r ∈ w.table.rows) (hkey : r.key ≠ row.key) (x : ℕ) :
    w.table.rows.countP (fun r => eff r = x ∧ r.key ≠ row.key)
      = (w.table.delete r.key).rows.countP (fun r => eff r = x ∧ r.key ≠ row.key)
        + if eff r = x then 1 else 0 := by
  rw [(Table.delete_perm hr).countP_eq, List.countP_cons]
  simp [hkey]

theorem exists_standing (h : 0 < standing row w) :
    ∃ r ∈ w.table.rows, eff r = w.metaMem.extra.toNat ∧ r.key ≠ row.key := by
  obtain ⟨r, hr, h⟩ := List.countP_pos_iff.1 h
  exact ⟨r, hr, by simpa using h⟩

/-- There is another row. -/
theorem exists_other (hlen : 1 < w.table.rows.length) : ∃ r ∈ w.table.rows, r.key ≠ row.key := by
  by_contra hall
  push Not at hall
  have hkeys : ∀ k ∈ w.table.rows.map Row.key, k = row.key := by
    intro k hk
    obtain ⟨r, hr, rfl⟩ := List.mem_map.1 hk
    exact hall r hr
  have hnd : (w.table.rows.map Row.key).Nodup := w.table.keys_nodup
  rw [List.eq_replicate_of_mem hkeys, List.nodup_replicate, List.length_map] at hnd
  omega

/-- All rows but the one stand at `x`, if none of the others stands elsewhere. -/
theorem countP_others {x : ℕ} (hall : ∀ r ∈ w.table.rows, r.key ≠ row.key → eff r = x) :
    w.table.rows.length ≤ w.table.rows.countP (fun r => eff r = x ∧ r.key ≠ row.key) + 1 := by
  have hone : (w.table.rows.map Row.key).count row.key ≤ 1 :=
    List.nodup_iff_count_le_one.1 w.table.keys_nodup row.key
  rw [List.count, List.countP_map] at hone
  have hsplit := List.length_eq_countP_add_countP (l := w.table.rows) fun r => r.key == row.key
  have hothers : w.table.rows.countP (fun r => decide ¬ (r.key == row.key) = true)
      ≤ w.table.rows.countP (fun r => eff r = x ∧ r.key ≠ row.key) := by
    refine List.countP_mono_left fun r hr h => ?_
    have hkey : r.key ≠ row.key := by simpa using h
    simpa [hkey] using hall r hr hkey
  simp only [Function.comp_def] at hone
  omega

theorem aging_lt (hpos : 0 < guard n row w) : w.metaMem.extra.toNat < eff row := by
  by_contra h
  rw [guard, if_neg h] at hpos
  exact absurd hpos (lt_irrefl 0)

/-- The victim is another row, whose `eff` is `global_aging` or the next, and in the latter case all
others have that. -/
theorem pick_guard {r : Row} (hg : Good w.table w.metaMem.extra) (hs : Scanned S row w)
    (hmany : n < w.table.rows.length) (hr : R.pick w.table = some r) (hpos : 0 < guard n row w) :
    eff r < eff row ∧ guard n row w ≤ (eff row - (eff r + 1)) * n
      + w.table.rows.countP (fun r' => eff r' = eff r ∧ r'.key ≠ row.key) := by
  have hmem := R.pick_mem hr
  have hlt := aging_lt hpos
  rw [guard, if_pos hlt] at hpos ⊢
  rcases Nat.eq_zero_or_pos (standing row w) with hnone | hsome
  · rw [hnone] at hpos ⊢
    have hgap : eff row - (w.metaMem.extra.toNat + 1) ≠ 0 := fun h => by simp [h] at hpos
    have hn : n ≠ 0 := fun h => by simp [h] at hpos
    have hall : ∀ r' ∈ w.table.rows, r'.key ≠ row.key → eff r' = w.metaMem.extra.toNat + 1 := by
      intro r' hr' hkey
      have hle := hs.common r' hr' hkey
      have hge := (hg r' hr').aging_le
      have hne : eff r' ≠ w.metaMem.extra.toNat := by
        intro h
        have := List.countP_eq_zero.1 hnone r' hr'
        simp [h, hkey] at this
      omega
    obtain ⟨r₀, hr₀, hkey₀⟩ : ∃ r₀ ∈ w.table.rows, r₀.key ≠ row.key := exists_other (by omega)
    have hleast := eff_le hg hr hr₀
    rw [hall r₀ hr₀ hkey₀] at hleast
    have hkey : r.key ≠ row.key := by
      intro h
      rw [Table.eq_of_key hmem hs.there h] at hleast
      omega
    have hcount := countP_others hall
    have hmul : (eff row - (w.metaMem.extra.toNat + 1)) * n
        = (eff row - (w.metaMem.extra.toNat + 1 + 1)) * n + n := by
      rw [← Nat.succ_mul]
      congr 1
      omega
    rw [hall r hmem hkey]
    exact ⟨by omega, by omega⟩
  · obtain ⟨r₀, hr₀, heff₀, -⟩ := exists_standing hsome
    have heq : eff r = w.metaMem.extra.toNat :=
      le_antisymm (heff₀ ▸ eff_le hg hr hr₀) (hg r hmem).aging_le
    rw [heq]
    exact ⟨hlt, le_rfl⟩

/-- An eviction leaves the row alone while there is something to use up, and uses up one. -/
theorem evictOne_guard {r : Row} (hg : Good w.table w.metaMem.extra) (hs : Scanned S row w)
    (hmany : n < w.table.rows.length) (hr : R.pick w.table = some r) (hpos : 0 < guard n row w) :
    Scanned S row ((policy R).evictOne w r)
      ∧ guard n row w ≤ guard n row ((policy R).evictOne w r) + 1 := by
  have hmem := R.pick_mem hr
  have hge := (hg r hmem).aging_le
  have hage : ((policy R).evictOne w r).metaMem.extra.toNat = eff r := rfl
  obtain ⟨hlow, hguard⟩ := pick_guard hg hs hmany hr hpos
  have hkey : r.key ≠ row.key := by
    intro h
    rw [Table.eq_of_key hmem hs.there h] at hlow
    exact lt_irrefl _ hlow
  constructor
  · refine ⟨Table.mem_delete.2 ⟨hs.there, hkey.symm⟩, fun r' hr' hkey' => ?_, fun r' hr' =>
      hs.small r' (Table.delete_subset hr')⟩
    rw [hage]
    exact (hs.common r' (Table.delete_subset hr') hkey').trans (Nat.succ_le_succ hge)
  · have hrest : guard n row ((policy R).evictOne w r) = (eff row - (eff r + 1)) * n
        + (w.table.delete r.key).rows.countP fun r' => eff r' = eff r ∧ r'.key ≠ row.key :=
      if_pos hlow
    rw [standing_delete hmem hkey, if_pos rfl] at hguard
    rw [hrest]
    exact hguard

/-- While the loop of `remove_cache` goes on, there are more than `n` rows. -/
theorem lt_length {need : UInt64} (hw : Sound w) (hs : Scanned S row w) (hneed : need.toNat ≤ S)
    (hroom : (n + 1) * S ≤ w.metaMem.maxSize.toNat)
    (hover : w.metaMem.cacheSize + need > w.metaMem.maxSize) : n < w.table.rows.length := by
  have hsum := List.sum_le_card_nsmul (w.table.rows.map Row.bytes) S (by
    intro m hm
    obtain ⟨r, hr, rfl⟩ := List.mem_map.1 hm
    exact hs.small r hr)
  rw [List.length_map, smul_eq_mul] at hsum
  have htotal : (w.table.rows.map Row.bytes).sum = w.metaMem.cacheSize.toNat := hw.total
  have hgt := UInt64.lt_iff_toNat_lt.1 hover
  rw [UInt64.toNat_add] at hgt
  have hmod := Nat.mod_le (w.metaMem.cacheSize.toNat + need.toNat) (2 ^ 64)
  by_contra hle
  have hfew : (w.table.rows.length + 1) * S ≤ (n + 1) * S := Nat.mul_le_mul_right S (by omega)
  rw [Nat.succ_mul] at hfew
  omega

theorem evict_guard {need : UInt64} {D : List Row} (hw : Sound w)
    (hg : Good w.table w.metaMem.extra) (hs : Scanned S row w) (hneed : need.toNat ≤ S)
    (hfits : need ≤ w.metaMem.maxSize) (hroom : (n + 1) * S ≤ w.metaMem.maxSize.toNat)
    (hD : (policy R).dropped w need = D) (hlen : D.length ≤ guard n row w) :
    Scanned S row ((policy R).evict w D)
      ∧ guard n row w ≤ guard n row ((policy R).evict w D) + D.length := by
  induction D generalizing w with
  | nil => exact ⟨hs, le_rfl⟩
  | cons r D ih =>
    have hover : w.metaMem.cacheSize + need > w.metaMem.maxSize := by
      by_contra hfit
      rw [Policy.dropped_fits hfit] at hD
      cases hD
    obtain ⟨hr, hD'⟩ := Policy.dropped_eq_cons hD
    rw [List.length_cons] at hlen
    obtain ⟨hs', hone⟩ := evictOne_guard hg hs (lt_length hw hs hneed hroom hover) hr (by omega)
    obtain ⟨hs'', hrest⟩ := ih (w := (policy R).evictOne w r) (Policy.sound_evictOne hw hr)
      ((keeps R).evict hg hr) hs' hfits hroom hD'.symm (by omega)
    rw [Policy.evict_cons, List.length_cons]
    exact ⟨hs'', by omega⟩

end Evict

/-! ## Calls -/

/-- The call puts a file of at most `S` bytes that is not there, or only reads. -/
def Fresh (S : ℕ) (w : World) : Op → Prop
  | .put c => bindText c.key ∉ w.table.keys ∧ c.size.toNat ≤ S
  | .query _ | .backup => True
  | .renew _ _ | .update _ _ | .resize _ => False

instance (S : ℕ) (w : World) : ∀ op : Op, Decidable (Fresh S w op)
  | .put _ => inferInstanceAs (Decidable (_ ∧ _))
  | .query _ | .backup => inferInstanceAs (Decidable True)
  | .renew _ _ | .update _ _ | .resize _ => inferInstanceAs (Decidable False)

/-- As many evictions as `v` is good for leave the row alone. -/
def Guarded (n S : ℕ) (row : Row) (v w : World) : Prop :=
  evictions w ≤ evictions v + guard n row v →
    Scanned S row w ∧ evictions v + guard n row v ≤ evictions w + guard n row w

section Call

variable {v : World}

theorem Guarded.of_eq (h : Guarded n S row v w) (ht : w'.table = w.table)
    (hx : w'.metaMem.extra = w.metaMem.extra) (hd : w'.delivered = w.delivered) :
    Guarded n S row v w' := by
  have hsame : guard n row w' = guard n row w := by
    unfold guard standing
    rw [ht, hx]
  have hcount : evictions w' = evictions w := by rw [evictions, hd, evictions]
  intro hfew
  rw [hcount] at hfew ⊢
  obtain ⟨hs, hguard⟩ := h hfew
  rw [hsame]
  exact ⟨⟨ht ▸ hs.there, by rw [ht, hx]; exact hs.common, ht ▸ hs.small⟩, hguard⟩

theorem shrink_guarded {need : UInt64} (hw : Sound w) (hg : Good w.table w.metaMem.extra)
    (hneed : need.toNat ≤ S) (hfits : need ≤ w.metaMem.maxSize)
    (hroom : (n + 1) * S ≤ w.metaMem.maxSize.toNat) (h : Guarded n S row v w) :
    Guarded n S row v ((policy R).shrink w need) := by
  intro hfew
  rw [evictions_shrink] at hfew ⊢
  obtain ⟨hs, hguard⟩ := h (by omega)
  obtain ⟨hs', hrest⟩ := evict_guard (R := R) hw hg hs hneed hfits hroom rfl (by omega)
  have hsame : guard n row ((policy R).shrink w need)
      = guard n row ((policy R).evict w ((policy R).dropped w need)) := by
    unfold guard standing
    rw [Policy.shrink_table, Policy.shrink_metaMem]
  rw [hsame]
  refine ⟨⟨?_, ?_, ?_⟩, by omega⟩
  · rw [Policy.shrink_table]
    exact hs'.there
  · rw [Policy.shrink_table, Policy.shrink_metaMem]
    exact hs'.common
  · rw [Policy.shrink_table]
    exact hs'.small

theorem insertWorld_guarded {c : Cache} {t : Table} (hx : w.metaMem.extra.toNat + 1 < 2 ^ 63)
    (hsize : c.size.toNat ≤ S)
    (ht : w.table.insert ((algo R).newRow w.metaMem.extra c) = some t) (h : Guarded n S row v w) :
    Guarded n S row v ((algo R).insertWorld w t c.size) := by
  intro hfew
  obtain ⟨hs, hguard⟩ := h hfew
  have hrows : ((algo R).insertWorld w t c.size).table.rows
      = w.table.rows ++ [(algo R).newRow w.metaMem.extra c] := Table.insert_rows ht
  have hage : ((algo R).insertWorld w t c.size).metaMem.extra = w.metaMem.extra := rfl
  have hnew := newRow_eff R c hx
  have hsame : guard n row ((algo R).insertWorld w t c.size) = guard n row w := by
    unfold guard standing
    rw [hage, hrows, List.countP_append, List.countP_singleton]
    simp [hnew]
  refine ⟨⟨?_, ?_, ?_⟩, ?_⟩
  · rw [hrows]
    exact List.mem_append_left _ hs.there
  · rw [hrows, hage]
    intro r hr hne
    rw [List.mem_append, List.mem_singleton] at hr
    rcases hr with hr | rfl
    · exact hs.common r hr hne
    · exact hnew.le
  · rw [hrows]
    intro r hr
    rw [List.mem_append, List.mem_singleton] at hr
    rcases hr with hr | rfl
    · exact hs.small r hr
    · rw [Algo.newRow_bytes]
      exact hsize
  · rw [hsame]
    exact hguard

theorem effect_guarded {op : Op} {res : Except Error Ret} (hI : Inv Good w) (hq : w.fails = [])
    (hroom : (n + 1) * S ≤ w.metaMem.maxSize.toNat) (ho : (algo R).NoOverflow w op)
    (hf : Fresh S w op) (h : (algo R).Effect w op res w') (hv : Guarded n S row v w) :
    Guarded n S row v w' := by
  cases h with
  | failed _ _ _ hm | putEvictFailed _ _ _ _ _ _ hm | putInsertFailed _ _ _ hm =>
    simp [hq] at hm
  | putConflict c hc =>
    exact (shrink_guarded (w := w.tick 1) (hI.sound.tick 1) hI.good hf.2 hc.2.2 hroom
      (hv.of_eq rfl rfl rfl)).of_eq rfl rfl rfl
  | put c t hc hmem ht =>
    have hx : ((algo R).shrink (w.tick 1) c.size).metaMem.extra.toNat + 1 < 2 ^ 63 := by
      have : (((algo R).shrink (w.tick 1) c.size).metaMem.extra.toNat : ℤ) + 1 < 2 ^ 63 :=
        ((ho hc).1 hmem).2
      omega
    have hshrunk : Guarded n S row v ((algo R).shrink (w.tick 1) c.size) :=
      shrink_guarded (w := w.tick 1) (hI.sound.tick 1) hI.good hf.2 hc.2.2 hroom
        (hv.of_eq rfl rfl rfl)
    exact insertWorld_guarded hx hf.2 ht hshrunk
  | putRenewConflict c _ hmem => exact absurd hmem hf.1
  | putRenewed c r t _ hr hk | putGrown c r t _ _ _ hr hk =>
    exact absurd (Table.mem_keys.2 ⟨r, hr, hk⟩) hf.1
  | renewMissing | renewConflict | renewed | updateMissing | updated | resizeFailed | resize =>
    exact hf.elim
  | rejected => exact hv
  | query | backup => exact hv.of_eq rfl rfl rfl

/-- What holds after calls that only put and read. -/
structure Scanning (n S : ℕ) (row : Row) (v w : World) : Prop where
  inv : Inv Good w
  fails : w.fails = []
  room : (n + 1) * S ≤ w.metaMem.maxSize.toNat
  guarded : Guarded n S row v w

theorem step_scanning {i : Resolver × Op} (h : Scanning n S row v w) (hi : Admits w i)
    (hf : Fresh S w i.2) : Scanning n S row v (step w i).2 := by
  have heffect := (algo i.1).call_effect h.inv.sound i.2
  rw [← call_eq, show outcome (call i.1 i.2) w = step w i from rfl] at heffect
  obtain ⟨⟨hinv, hfails⟩, -⟩ := step_inv w i ⟨h.inv, h.fails⟩ hi
  refine ⟨hinv, hfails, ?_, effect_guarded h.inv h.fails h.room hi.2 hf heffect h.guarded⟩
  rcases Algo.Effect.maxSize heffect with hmax | hmax
  · rw [hmax]
    exact h.room
  · rw [hmax] at hf
    exact hf.elim

end Call

/-! ## Runs -/

/-- A row that has been accessed more often than the others stays through a scan: puts of files of
at most `S` bytes that are not there, where more than `n` of them have room. Its `eff` is good for
`n` evictions for each value between `global_aging + 1` and it. -/
theorem scan_keeps {M : UInt64} (hM : M ≠ 0) (before after : List (Resolver × Op))
    (hops : RunOk step Admits (start M) (before ++ after)) (n S : ℕ)
    (hroom : (n + 1) * S ≤ (run step (start M) before).2.metaMem.maxSize.toNat) (row : Row)
    (hrow : Scanned S row (run step (start M) before).2)
    (hpopular : (run step (start M) before).2.metaMem.extra.toNat < eff row)
    (hfresh : RunOk step (fun w i => Fresh S w i.2) (run step (start M) before).2 after)
    (hfew : evictions (run step (start M) (before ++ after)).2
      ≤ evictions (run step (start M) before).2
        + (eff row - ((run step (start M) before).2.metaMem.extra.toNat + 1)) * n) :
    row ∈ (run step (start M) (before ++ after)).2.table.rows := by
  obtain ⟨hbefore, hafter⟩ := runOk_append.1 hops
  rw [run_append] at hfew ⊢
  obtain ⟨hI, hq⟩ := run_inv hM before hbefore
  generalize (run step (start M) before).2 = v at *
  have hend : Scanning n S row v (run step v after).2 :=
    run_invariant (fun w i h ho => step_scanning h ho.1 ho.2) v after
      ⟨hI, hq, hroom, fun _ => ⟨hrow, le_rfl⟩⟩ (hafter.and hfresh)
  refine (hend.guarded (hfew.trans ?_)).1.there
  rw [guard, if_pos hpopular]
  omega

/-- A file accessed three times stays while three others pass through a cache for two. -/
theorem scan_keeps_two :
    let file (k : UInt8) : Resolver × Op := (.first, .put ⟨[k], 1, 0, [], ⟨0, 0, 0⟩⟩)
    let before := [file 97, (.first, .renew [97] 0), (.first, .renew [97] 0)]
    let row : Row := ⟨[97], 1, 0, [], ⟨0, 3, 3⟩⟩
    row ∈ (run step (start 2) (before ++ [file 98, file 99, file 100])).2.table.rows :=
  scan_keeps (by decide) _ _ (by decide) 1 1 (by decide) _
    ⟨by decide, by decide, by decide⟩ (by decide) (by decide) (by decide)

end Lfuda

end XCache
