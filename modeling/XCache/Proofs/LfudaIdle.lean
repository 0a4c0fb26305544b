import XCache.Proofs.LfudaHistory

/-!
# No file stays for what it once was

Dynamic aging is there so that a file accessed often in the past leaves, too, once it is accessed no
more. While a row with `eff = e` stays, every victim has an `eff` of at most `e`, and `global_aging`
is that `eff` afterwards. Rows whose `eff` is `global_aging` become no more until it rises, for what
is written is above it. So an eviction takes one of these, or raises `global_aging`, which it can do
until that is `e` (`evict_credit`).
-/

namespace XCache

namespace Lfuda

/-- The number of rows handed to `remove_callback`. -/
def evictions (w : World) : ℕ := w.delivered.flatten.length

/-- The number of rows whose `eff` is `global_aging`. -/
def aged (w : World) : ℕ := w.table.rows.countP fun r => eff r = w.metaMem.extra.toNat

/-- How many evictions there can be before a row with `eff = e` is the next, where the table has at
most `N` rows. -/
def credit (N e : ℕ) (w : World) : ℕ := (e - w.metaMem.extra.toNat) * N + aged w

/-- What has been evicted has been paid for. -/
def Pays (N e : ℕ) (w w' : World) : Prop :=
  evictions w' + credit N e w' ≤ evictions w + credit N e w

theorem Pays.trans {N e : ℕ} {w w' w'' : World} (h : Pays N e w w') (h' : Pays N e w' w'') :
    Pays N e w w'' := le_trans h' h

section Evict

variable {R : Resolver} {N e : ℕ} {w : World} {r : Row}

theorem aged_delete (hr : r ∈ w.table.rows) (x : UInt64) :
    w.table.rows.countP (fun r => eff r = x.toNat)
      = (w.table.delete r.key).rows.countP (fun r => eff r = x.toNat)
        + if eff r = x.toNat then 1 else 0 := by
  rw [(Table.delete_perm hr).countP_eq, List.countP_cons]
  simp only [decide_eq_true_eq]

/-- An eviction uses up one of the rows, or the room above `global_aging`. -/
theorem evictOne_credit (hg : Good w.table w.metaMem.extra) (hlen : w.table.rows.length ≤ N)
    (hr : R.pick w.table = some r) (he : eff r ≤ e) :
    credit N e ((policy R).evictOne w r) + 1 ≤ credit N e w := by
  have hmem := R.pick_mem hr
  have hge := (hg r hmem).aging_le
  have hdel := Table.delete_length hmem
  have hage : ((policy R).evictOne w r).metaMem.extra.toNat = eff r := rfl
  have hrows : ((policy R).evictOne w r).table = w.table.delete r.key := rfl
  unfold credit aged
  rw [hage, hrows]
  rcases hge.lt_or_eq with hlt | heq
  · have hle : (w.table.delete r.key).rows.countP (fun r' => eff r' = eff r) + 1 ≤ N := by
      have := List.countP_le_length (p := fun r' => decide (eff r' = eff r))
        (l := (w.table.delete r.key).rows)
      omega
    have hroom : (e - eff r + 1) * N ≤ (e - w.metaMem.extra.toNat) * N :=
      Nat.mul_le_mul_right N (by omega)
    rw [Nat.succ_mul] at hroom
    omega
  · have hcount := aged_delete hmem w.metaMem.extra
    rw [if_pos heq.symm] at hcount
    rw [hcount, heq]
    omega

/-- As long as a row with `eff ≤ e` stays. -/
theorem evict_credit {D : List Row} (hg : Good w.table w.metaMem.extra)
    (hlen : w.table.rows.length ≤ N) (hD : D <+: (policy R).order w.table)
    (hr : r ∈ ((policy R).evict w D).table.rows) (he : eff r ≤ e) :
    credit N e ((policy R).evict w D) + D.length ≤ credit N e w := by
  induction D generalizing w with
  | nil => exact le_rfl
  | cons v D ih =>
    obtain ⟨hv, hD'⟩ := Policy.prefix_order_cons hD
    have hr' : r ∈ w.table.rows := Policy.evict_subset hr
    have hone := evictOne_credit hg hlen hv ((eff_le hg hv hr').trans he)
    have hdel := Table.delete_length (R.pick_mem hv)
    have hrest := ih (w := (policy R).evictOne w v) ((keeps R).evict hg hv)
      (by have : ((policy R).evictOne w v).table = w.table.delete v.key := rfl
          rw [this]
          omega) hD' hr
    rw [Policy.evict_cons, List.length_cons]
    omega

theorem evictions_shrink (need : UInt64) :
    evictions ((policy R).shrink w need)
      = evictions w + ((policy R).dropped w need).length := by
  unfold evictions
  rw [Policy.shrink_delivered]
  split_ifs with h
  · simp [h]
  · simp

theorem pays_shrink (hg : Good w.table w.metaMem.extra) (hlen : w.table.rows.length ≤ N)
    {need : UInt64} (hr : r ∈ ((policy R).shrink w need).table.rows) (he : eff r ≤ e) :
    Pays N e w ((policy R).shrink w need) := by
  rw [Policy.shrink_table] at hr
  have hcredit := evict_credit hg hlen (Policy.dropped_isPrefix need) hr he
  have hshrink : credit N e ((policy R).shrink w need)
      = credit N e ((policy R).evict w ((policy R).dropped w need)) := by
    unfold credit aged
    rw [Policy.shrink_table, Policy.shrink_metaMem]
  unfold Pays
  rw [evictions_shrink, hshrink]
  omega

end Evict

/-! ## The other statements -/

section Statements

variable {R : Resolver} {N e : ℕ} {w w' : World} {r : Row}

/-- A world with the same `global_aging`, whose rows with that `eff` were there before. -/
theorem Pays.of_aged (hx : w'.metaMem.extra = w.metaMem.extra) (hd : w'.delivered = w.delivered)
    (h : aged w' ≤ aged w) : Pays N e w w' := by
  unfold Pays credit evictions
  rw [hx, hd]
  omega

theorem pays_renewWorld {key : Bytes} {ts : UInt64} {t : Table}
    (hx : ∀ r ∈ w.table.rows, r.key = key → freq r + 1 + w.metaMem.extra.toNat < 2 ^ 63)
    (ht : w.table.update key (touchRow touch w.metaMem.extra ts) = some t) :
    Pays N e w ((algo R).renewWorld w t) := by
  refine .of_aged rfl rfl ?_
  show t.rows.countP _ ≤ w.table.rows.countP _
  rw [Table.update_rows ht, List.countP_map]
  refine List.countP_mono_left fun r hr h => ?_
  simp only [Function.comp_apply, decide_eq_true_eq] at h ⊢
  split_ifs at h with hk
  · rw [touchRow_eff ts (hx r hr hk)] at h
    change _ = w.metaMem.extra.toNat at h
    omega
  · exact h

theorem pays_insertWorld {c : Cache} {t : Table} (hx : w.metaMem.extra.toNat + 1 < 2 ^ 63)
    (ht : w.table.insert ((algo R).newRow w.metaMem.extra c) = some t) :
    Pays N e w ((algo R).insertWorld w t c.size) := by
  refine .of_aged rfl rfl ?_
  show t.rows.countP _ ≤ w.table.rows.countP _
  rw [Table.insert_rows ht, List.countP_append, List.countP_singleton]
  have hnew := newRow_eff R c hx
  have hage : ((algo R).insertWorld w t c.size).metaMem.extra = w.metaMem.extra := rfl
  rw [if_neg (by
    simp only [decide_eq_true_eq, hage, hnew]
    omega)]
  exact le_rfl

theorem pays_sizeEffect {key : Bytes} {size n : UInt64} {res : Except Error Unit}
    (hg : Good w.table w.metaMem.extra) (hlen : w.table.rows.length ≤ N) (hq : w.fails = [])
    (h : (algo R).SizeEffect w key size n res w') (hr : r ∈ w'.table.rows) (he : eff r ≤ e) :
    Pays N e w w' := by
  cases h with
  | same => exact le_rfl
  | evictFailed D _ _ _ hf => simp [hq] at hf
  | aborted => exact pays_shrink hg hlen hr he
  | contentFailed _ _ hf => simp [hq] at hf
  | resized t hne hs _ ht =>
    obtain ⟨r₀, hr₀, hset⟩ := (Table.mem_update ht).1 hr
    have he₀ : eff r₀ ≤ e := by
      rw [← hset] at he
      split_ifs at he <;> exact he
    have hroom : Pays N e w ((algo R).roomFor w size n) := by
      unfold Algo.roomFor at hr₀ ⊢
      split_ifs at hr₀ ⊢ with hgrow
      · exact pays_shrink hg hlen hr₀ he₀
      · exact le_rfl
    refine hroom.trans (.of_aged rfl rfl ?_)
    show t.rows.countP _ ≤ ((algo R).roomFor w size n).table.rows.countP _
    rw [Table.update_rows ht, List.countP_map]
    refine List.countP_mono_left fun r' _ h => ?_
    simp only [Function.comp_apply, decide_eq_true_eq] at h ⊢
    split_ifs at h <;> exact h

end Statements

/-! ## Calls -/

section Call

variable {R : Resolver} {N e : ℕ} {w w' : World} {op : Op} {res : Except Error Ret} {r : Row}

/-- A call that leaves a row alone pays for what it evicts. -/
theorem effect_pays (hI : Inv Good w) (hq : w.fails = []) (hlen : w.table.rows.length ≤ N)
    (hk : KeyExact op.key) (ho : (algo R).NoOverflow w op) (h : (algo R).Effect w op res w')
    (hr : r ∈ w'.table.rows) (he : eff r ≤ e) (hidle : ¬ Accesses op r.key) : Pays N e w w' := by
  have hg := hI.good
  have hb := hk.bound
  have hcount : ∀ {r : Row}, (algo R).renewCount w.metaMem.extra r.cols < 2 ^ 63 →
      freq r + 1 + w.metaMem.extra.toNat < 2 ^ 63 := by
    intro r hr
    have : (freq r : ℤ) + 1 + w.metaMem.extra.toNat < 2 ^ 63 := hr
    omega
  cases h with
  | failed _ _ _ hf | putEvictFailed _ _ _ _ _ _ hf | putInsertFailed _ _ _ hf
  | resizeFailed _ _ _ _ _ _ _ hf => simp [hq] at hf
  | putConflict c =>
    rw [tick_table] at hr
    exact pays_shrink (w := w.tick 1) hg hlen hr he
  | put c t hc hmem ht =>
    have hb : bindText c.key = c.key := hb
    have hx : ((algo R).shrink (w.tick 1) c.size).metaMem.extra.toNat + 1 < 2 ^ 63 := by
      have : (((algo R).shrink (w.tick 1) c.size).metaMem.extra.toNat : ℤ) + 1 < 2 ^ 63 :=
        ((ho hc).1 hmem).2
      omega
    have hr : r ∈ t.rows := hr
    rw [Table.insert_rows ht, List.mem_append, List.mem_singleton] at hr
    rcases hr with hr | rfl
    · exact (pays_shrink (w := w.tick 1) hg hlen hr he).trans (pays_insertWorld hx ht)
    · exact absurd (.inl ⟨c, rfl, by rw [Algo.newRow_key, hb]⟩) hidle
  | putRenewed c r₀ t hc hr₀ hk₀ _ ht =>
    exact pays_renewWorld (w := w.tick 1) (fun r hr hk => hcount ((ho hc).2 r hr hk).2) ht
  | putGrown c r₀ t res' w' hc hr₀ hk₀ _ ht hs =>
    have hrenew : ∀ r ∈ w.table.rows, r.key = bindText c.key →
        freq r + 1 + w.metaMem.extra.toNat < 2 ^ 63 :=
      fun r hr hk => hcount ((ho hc).2 r hr hk).2
    have hg' : Good t w.metaMem.extra := (keeps R).renew hg hr₀ ((ho hc).2 r₀ hr₀ hk₀).2 (hk₀ ▸ ht)
    have hlen' : t.rows.length ≤ N := by
      rw [Table.update_rows ht, List.length_map]
      exact hlen
    exact (pays_renewWorld (w := w.tick 1) hrenew ht).trans
      (pays_sizeEffect (w := (algo R).renewWorld (w.tick 1) t) hg' hlen' hq hs hr he)
  | renewed k ts t _ _ ht => exact pays_renewWorld (fun r hr hk => hcount (ho r hr hk)) ht
  | updated k n r₀ res' w' _ _ _ hs =>
    exact pays_sizeEffect (w := w.tick 1) hg hlen hq hs hr he
  | resize n w₁ _ hw₁ =>
    subst hw₁
    exact pays_shrink (w := { w with metaMem := { w.metaMem with maxSize := n } }) hg hlen hr he
  | _ => exact le_rfl

/-- What holds after calls that leave the row of `key` alone: it is as it was in `v`, and what has
been evicted since has been paid for, or it has left. -/
structure Idle (N : ℕ) (v : World) (row : Row) (w : World) : Prop where
  inv : Inv Good w
  fails : w.fails = []
  pays : ∀ r ∈ w.table.rows, r.key = row.key → r.cols = row.cols ∧ Pays N (eff row) v w

theorem step_idle {v : World} {row : Row} {i : Resolver × Op} (h : Idle N v row w)
    (hi : Admits w i) (hlen : w.table.rows.length ≤ N) (hidle : ¬ Accesses i.2 row.key) :
    Idle N v row (step w i).2 := by
  have horigin := step_origin ⟨h.inv, h.fails⟩ hi
  have heffect := (algo i.1).call_effect h.inv.sound i.2
  rw [← call_eq, show outcome (call i.1 i.2) w = step w i from rfl] at heffect
  obtain ⟨⟨hinv, hfails⟩, -⟩ := step_inv w i ⟨h.inv, h.fails⟩ hi
  refine ⟨hinv, hfails, fun r hr hkey => ?_⟩
  obtain ⟨r₀, hr₀, hkey₀⟩ : ∃ r₀ ∈ w.table.rows, r₀.key = r.key := by
    cases horigin r hr with
    | kept r₀ hr₀ hk => exact ⟨r₀, hr₀, hk.symm⟩
    | renewed r₀ _ hr₀ hk => exact ⟨r₀, hr₀, hk.symm⟩
    | inserted _ _ hacc => exact absurd (hkey ▸ hacc) hidle
  obtain ⟨hcols, hpays⟩ := h.pays r₀ hr₀ (hkey₀.trans hkey)
  have hsame : r.cols = row.cols :=
    ((horigin r hr).cols hr₀ hkey₀.symm (hkey₀.trans hkey ▸ hidle)).trans hcols
  have heff : eff r = eff row := by
    unfold eff
    rw [hsame]
  exact ⟨hsame, hpays.trans (effect_pays h.inv h.fails hlen hi.1 hi.2 heffect hr heff.le
    (hkey ▸ hidle))⟩

end Call

/-! ## Runs -/

/-- A row of any reachable state that no later call accesses has left once there have been more
evictions than rows, at most, for each value from `global_aging` up to its `eff`. -/
theorem idle_leaves {M : UInt64} (hM : M ≠ 0) (before after : List (Resolver × Op))
    (hops : RunOk step Admits (start M) (before ++ after)) (N : ℕ)
    (hN : RunOk step (fun w _ => w.table.rows.length ≤ N) (run step (start M) before).2 after)
    (row : Row) (hrow : row ∈ (run step (start M) before).2.table.rows)
    (hidle : ∀ i ∈ after, ¬ Accesses i.2 row.key)
    (hmany : evictions (run step (start M) before).2
        + (eff row - (run step (start M) before).2.metaMem.extra.toNat + 1) * N
      < evictions (run step (start M) (before ++ after)).2) :
    row.key ∉ (run step (start M) (before ++ after)).2.table.keys := by
  obtain ⟨hbefore, hafter⟩ := runOk_append.1 hops
  rw [run_append] at hmany ⊢
  obtain ⟨hI, hq⟩ := run_inv hM before hbefore
  generalize (run step (start M) before).2 = v at *
  have hstart : Idle N v row v :=
    ⟨hI, hq, fun r hr hkey => ⟨congrArg Row.cols (Table.eq_of_key hr hrow hkey), le_rfl⟩⟩
  have hcalls : RunOk step (fun _ i => ¬ Accesses i.2 row.key) v after :=
    RunOk.of_inputs v after hidle
  have hend : Idle N v row (run step v after).2 :=
    run_invariant (fun w i h ho => step_idle h ho.1.1 ho.1.2 ho.2) v after hstart
      ((hafter.and hN).and hcalls)
  intro hkey
  obtain ⟨r, hr, hk⟩ := Table.mem_keys.1 hkey
  obtain ⟨-, hpays⟩ := hend.pays r hr hk
  rcases after with _ | ⟨i, after⟩
  · simp only [run_nil] at hmany
    omega
  · have haged : aged v ≤ N := List.countP_le_length.trans hN.1
    unfold Pays credit at hpays
    simp only [Nat.succ_mul] at hmany
    omega

/-- A file accessed three times stays while two others come and go, and leaves with the fourth. -/
theorem idle_leaves_two :
    let file (k : UInt8) : Resolver × Op := (.first, .put ⟨[k], 1, 0, [], ⟨0, 0, 0⟩⟩)
    let before := [file 97, (.first, .renew [97] 0)]
    let row : Row := ⟨[97], 1, 0, [], ⟨0, 2, 2⟩⟩
    row.key ∉ (run step (start 2) (before ++ [file 98, file 99, file 100, file 101, file 102,
      file 103, file 104, file 105])).2.table.keys :=
  idle_leaves (by decide) _ _ (by decide) 2 (by decide) _ (by decide) (by simp [Accesses])
    (by decide)

end Lfuda

end XCache
