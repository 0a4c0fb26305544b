import XCache.Proofs.LfudaAging

/-!
# What an LFUDA row remembers

The log of a key lists its last insertion and the accesses since, each with the timestamp of the
call and the `global_aging` of the moment: after the evictions of an insertion, before those of a
`put` that renews. The row's `freq` counts the log, its `timestamp` is the greatest in the log, and
its `eff` is `freq` plus the last `global_aging` (`run_remembers`).
-/

namespace XCache

namespace Lfuda

/-- An insertion of a key, or an access to it in the cache. -/
structure Access where
  timestamp : UInt64
  aging : UInt64

/-- The log of a key after one more call. -/
def note (key : Bytes) (w : World) (op : Op) (res : Except Error Ret) (w' : World)
    (log : List Access) : List Access :=
  match op, res with
  | .put c, .ok (.bool true) =>
    if c.key = key then [⟨c.fields.timestamp, w'.metaMem.extra⟩] else log
  | .put c, .ok (.bool false) =>
    if c.key = key then log ++ [⟨c.fields.timestamp, w.metaMem.extra⟩] else log
  | .renew k ts, .ok (.bool true) => if k = key then log ++ [⟨ts, w.metaMem.extra⟩] else log
  | _, _ => log

/-- The log of a key after a run, from what it was before. -/
def accesses (key : Bytes) : World → List (Resolver × Op) → List Access → List Access
  | _, [], log => log
  | w, i :: is, log =>
    accesses key (step w i).2 is (note key w i.2 (step w i).1 (step w i).2 log)

/-- The row is what the log of its key says. -/
structure Remembers (log : List Access) (r : Row) : Prop where
  freq : freq r = 1 + log.tail.length
  timestamp_mem : columnUInt64 r.cols.timestamp ∈ log.map Access.timestamp
  timestamp_ge : ∀ a ∈ log, a.timestamp ≤ columnUInt64 r.cols.timestamp
  eff : ∃ a, log.getLast? = some a ∧ eff r = Lfuda.freq r + a.aging.toNat

/-- The calls that may write a row's columns. -/
def Accesses (op : Op) (key : Bytes) : Prop :=
  (∃ c, op = .put c ∧ c.key = key) ∨ ∃ ts, op = .renew key ts

section Rows

variable {log : List Access} {r r' : Row} {x : UInt64}

theorem Remembers.of_cols (h : Remembers log r) (hc : r'.cols = r.cols) : Remembers log r' where
  freq := by
    unfold Lfuda.freq
    rw [hc]
    exact h.freq
  timestamp_mem := hc ▸ h.timestamp_mem
  timestamp_ge := hc ▸ h.timestamp_ge
  eff := by
    obtain ⟨a, ha, he⟩ := h.eff
    refine ⟨a, ha, ?_⟩
    unfold Lfuda.eff Lfuda.freq at he ⊢
    rw [hc]
    exact he

theorem Remembers.ne_nil (h : Remembers log r) : log ≠ [] := by
  rintro rfl
  obtain ⟨a, ha, -⟩ := h.eff
  simp at ha

theorem remembers_newRow (R : Resolver) (c : Cache) (hx : x.toNat + 1 < 2 ^ 63) :
    Remembers [⟨c.fields.timestamp, x⟩] ((algo R).newRow x c) := by
  have hts : columnUInt64 ((algo R).newRow x c).cols.timestamp = c.fields.timestamp :=
    UInt64.toUInt64_toInt64 _
  refine ⟨newRow_freq R c, by simp [hts], by simp [hts],
    ⟨⟨c.fields.timestamp, x⟩, rfl, ?_⟩⟩
  rw [newRow_eff R c hx, newRow_freq, Nat.add_comm]

theorem Remembers.touch (h : Remembers log r) (ts : UInt64)
    (hx : Lfuda.freq r + 1 + x.toNat < 2 ^ 63) :
    Remembers (log ++ [⟨ts, x⟩]) (touchRow touch x ts r) := by
  have hts : columnUInt64 (touchRow Lfuda.touch x ts r).cols.timestamp
      = if columnUInt64 r.cols.timestamp > ts then columnUInt64 r.cols.timestamp else ts :=
    UInt64.toUInt64_toInt64 _
  refine ⟨?_, ?_, ?_, ⟨⟨ts, x⟩, by simp, ?_⟩⟩
  · rw [touchRow_freq ts hx, h.freq, List.tail_append_of_ne_nil h.ne_nil]
    simp [Nat.add_assoc]
  · rw [hts]
    split_ifs
    · exact List.mem_map.2 (by
        obtain ⟨a, ha, heq⟩ := List.mem_map.1 h.timestamp_mem
        exact ⟨a, List.mem_append_left _ ha, heq⟩)
    · simp
  · intro a ha
    rw [hts]
    rcases List.mem_append.1 ha with ha | ha
    · have hge := h.timestamp_ge a ha
      split_ifs with hgt
      · exact hge
      · exact UInt64.le_trans hge (UInt64.not_lt.1 hgt)
    · rw [List.mem_singleton.1 ha]
      split_ifs with hgt
      · exact UInt64.le_of_lt hgt
      · exact UInt64.le_refl _
  · rw [touchRow_eff ts hx, touchRow_freq ts hx]

end Rows

/-! ## One call -/

section Call

variable {R : Resolver} {w w' : World} {op : Op} {res : Except Error Ret}

theorem roomFor_subset {size n : UInt64} {r : Row}
    (h : r ∈ ((algo R).roomFor w size n).table.rows) : r ∈ w.table.rows := by
  unfold Algo.roomFor at h
  split_ifs at h
  · rw [Policy.shrink_table] at h
    exact Policy.evict_subset h
  · exact h

theorem sizeEffect_cols {key : Bytes} {size n : UInt64} {res : Except Error Unit}
    (h : (algo R).SizeEffect w key size n res w') :
    ∀ r' ∈ w'.table.rows, ∃ r ∈ w.table.rows, r'.key = r.key ∧ r'.cols = r.cols := by
  intro r' hr'
  cases h with
  | same => exact ⟨r', hr', rfl, rfl⟩
  | evictFailed D => exact ⟨r', Policy.evict_subset hr', rfl, rfl⟩
  | aborted =>
    rw [Policy.shrink_table] at hr'
    exact ⟨r', Policy.evict_subset hr', rfl, rfl⟩
  | contentFailed => exact ⟨r', roomFor_subset hr', rfl, rfl⟩
  | resized t _ _ _ ht =>
    obtain ⟨r, hr, rfl⟩ := (Table.mem_update ht).1 hr'
    refine ⟨r, roomFor_subset hr, ?_⟩
    split_ifs <;> exact ⟨rfl, rfl⟩

/-- Where a row of the table after a call comes from, and what its log has noted. -/
inductive Origin (R : Resolver) (w : World) (op : Op) (res : Except Error Ret) (w' : World)
    (r' : Row) : Prop
  | kept (r : Row) : r ∈ w.table.rows → r'.key = r.key → r'.cols = r.cols →
    (∀ log, note r'.key w op res w' log = log) → Origin R w op res w' r'
  | renewed (r : Row) (ts : UInt64) : r ∈ w.table.rows → r'.key = r.key →
    r'.cols = touch w.metaMem.extra ts r.cols → Accesses op r'.key →
    freq r + 1 + w.metaMem.extra.toNat < 2 ^ 63 →
    (∀ log, note r'.key w op res w' log = log ++ [⟨ts, w.metaMem.extra⟩]) → Origin R w op res w' r'
  | inserted (c : Cache) : r' = (algo R).newRow w'.metaMem.extra c → Accesses op r'.key →
    w'.metaMem.extra.toNat + 1 < 2 ^ 63 →
    (∀ log, note r'.key w op res w' log = [⟨c.fields.timestamp, w'.metaMem.extra⟩]) →
    Origin R w op res w' r'

/-- A row of the table after the renewal of `key`, whose columns the rest of the call keeps. -/
theorem origin_update {key : Bytes} {ts : UInt64} {t : Table} {r₁ r' : Row}
    (hx : ∀ r ∈ w.table.rows, r.key = key → freq r + 1 + w.metaMem.extra.toNat < 2 ^ 63)
    (ht : w.table.update key (touchRow touch w.metaMem.extra ts) = some t) (hr₁ : r₁ ∈ t.rows)
    (hkey : r'.key = r₁.key) (hcols : r'.cols = r₁.cols) (hop : Accesses op key)
    (hnote : ∀ log, note r'.key w op res w' log
      = if key = r'.key then log ++ [⟨ts, w.metaMem.extra⟩] else log) :
    Origin R w op res w' r' := by
  obtain ⟨r, hr, rfl⟩ := (Table.mem_update ht).1 hr₁
  by_cases hk : r.key = key
  · rw [if_pos hk] at hkey hcols
    have hk' : key = r'.key := hk.symm.trans hkey.symm
    exact .renewed r ts hr hkey hcols (hk' ▸ hop) (hx r hr hk) fun log => by
      rw [hnote, if_pos hk']
  · rw [if_neg hk] at hkey hcols
    exact .kept r hr hkey hcols fun log => by
      rw [hnote, if_neg fun h => hk (hkey.symm.trans h.symm)]

theorem effect_origin (hq : w.fails = []) (hk : KeyExact op.key) (ho : (algo R).NoOverflow w op)
    (h : (algo R).Effect w op res w') : ∀ r ∈ w'.table.rows, Origin R w op res w' r := by
  have hb := hk.bound
  have hcount : ∀ {r : Row}, (algo R).renewCount w.metaMem.extra r.cols < 2 ^ 63 →
      freq r + 1 + w.metaMem.extra.toNat < 2 ^ 63 := by
    intro r hr
    have : (freq r : ℤ) + 1 + w.metaMem.extra.toNat < 2 ^ 63 := hr
    omega
  intro r hr
  cases h with
  | rejected _ e => exact .kept r hr rfl rfl fun log => by cases op <;> rfl
  | failed _ n _ hf => simp [hq] at hf
  | putEvictFailed c D _ _ _ _ hf => simp [hq] at hf
  | putInsertFailed c _ _ hf => simp [hq] at hf
  | putConflict c =>
    rw [tick_table, Policy.shrink_table] at hr
    exact .kept r (Policy.evict_subset (w := w.tick 1) hr) rfl rfl fun _ => rfl
  | put c t hc hmem ht =>
    have hb : bindText c.key = c.key := hb
    have hx : ((algo R).shrink (w.tick 1) c.size).metaMem.extra.toNat + 1 < 2 ^ 63 := by
      have : (((algo R).shrink (w.tick 1) c.size).metaMem.extra.toNat : ℤ) + 1 < 2 ^ 63 :=
        ((ho hc).1 hmem).2
      omega
    rw [hb] at hmem
    have hr : r ∈ t.rows := hr
    rw [Table.insert_rows ht, List.mem_append, List.mem_singleton] at hr
    rcases hr with hr | rfl
    · rw [Policy.shrink_table] at hr
      have hr : r ∈ w.table.rows := Policy.evict_subset (w := w.tick 1) hr
      have hne : c.key ≠ r.key := fun h => hmem (Table.mem_keys.2 ⟨r, hr, h.symm⟩)
      exact .kept r hr rfl rfl fun log => by rw [note, if_neg hne]
    · refine .inserted c rfl (.inl ⟨c, rfl, ?_⟩) hx fun log => ?_
      · rw [Algo.newRow_key, hb]
      · rw [note, Algo.newRow_key, hb, if_pos rfl]
  | putRenewConflict c => exact .kept r hr rfl rfl fun _ => rfl
  | putRenewed c r₀ t hc hr₀ hk₀ hle ht =>
    rw [show bindText c.key = c.key from hb] at ht
    exact origin_update (fun r hr hk => hcount ((ho hc).2 r hr (hk.trans hb.symm)).2) ht hr rfl rfl
      (.inl ⟨c, rfl, rfl⟩) fun _ => rfl
  | putGrown c r₀ t res' w' hc hr₀ hk₀ hgrow ht hs =>
    rw [show bindText c.key = c.key from hb] at ht
    have hq₁ : ((algo R).renewWorld (w.tick 1) t).fails = [] := hq
    obtain rfl := Algo.sizeEffect_ok hq₁ hs
    obtain ⟨r₁, hr₁, hk₁, hc₁⟩ := sizeEffect_cols hs r hr
    exact origin_update (fun r hr hk => hcount ((ho hc).2 r hr (hk.trans hb.symm)).2) ht hr₁ hk₁ hc₁
      (.inl ⟨c, rfl, rfl⟩) fun _ => rfl
  | renewMissing k a => exact .kept r hr rfl rfl fun _ => rfl
  | renewConflict k a => exact .kept r hr rfl rfl fun _ => rfl
  | renewed k ts t _ _ ht =>
    rw [show bindText k = k from hb] at ht
    exact origin_update (fun r hr hk => hcount (ho r hr (hk.trans hb.symm))) ht hr rfl rfl
      (.inr ⟨ts, rfl⟩) fun _ => rfl
  | updateMissing => exact .kept r hr rfl rfl fun _ => rfl
  | updated k n r₀ res' w' hc hr₀ hk₀ hs =>
    obtain ⟨r₁, hr₁, hk₁, hc₁⟩ := sizeEffect_cols hs r hr
    exact .kept r₁ hr₁ hk₁ hc₁ fun _ => rfl
  | resizeFailed n D w₁ _ hw₁ _ _ hf => simp [hq] at hf
  | resize n w₁ _ hw₁ =>
    subst hw₁
    rw [Policy.shrink_table] at hr
    exact .kept r (Policy.evict_subset
      (w := { w with metaMem := { w.metaMem with maxSize := n } }) hr) rfl rfl fun _ => rfl
  | query => exact .kept r hr rfl rfl fun _ => rfl
  | backup => exact .kept r hr rfl rfl fun _ => rfl

theorem Origin.remembers {log : Bytes → List Access} {r : Row} (h : Origin R w op res w' r)
    (hlog : ∀ r ∈ w.table.rows, Remembers (log r.key) r) :
    Remembers (note r.key w op res w' (log r.key)) r := by
  cases h with
  | kept r₀ hr₀ hk hc hnote =>
    rw [hnote, hk]
    exact (hlog r₀ hr₀).of_cols hc
  | renewed r₀ ts hr₀ hk hc _ hx hnote =>
    rw [hnote, hk]
    exact ((hlog r₀ hr₀).touch ts hx).of_cols hc
  | inserted c hrow _ hx hnote =>
    rw [hnote, hrow]
    exact remembers_newRow R c hx

theorem Origin.cols {r r' : Row} (h : Origin R w op res w' r') (hr : r ∈ w.table.rows)
    (hkey : r'.key = r.key) (hop : ¬ Accesses op r.key) : r'.cols = r.cols := by
  cases h with
  | kept r₀ hr₀ hk hc => exact Table.eq_of_key hr₀ hr (hk.symm.trans hkey) ▸ hc
  | renewed _ _ _ _ _ hacc => exact absurd (hkey ▸ hacc) hop
  | inserted _ _ hacc => exact absurd (hkey ▸ hacc) hop

theorem step_origin {i : Resolver × Op} (hI : Inv Good w ∧ w.fails = []) (hi : Admits w i) :
    ∀ r ∈ (step w i).2.table.rows, Origin i.1 w i.2 (step w i).1 (step w i).2 r := by
  have h := (algo i.1).call_effect hI.1.sound i.2
  rw [← call_eq, show outcome (call i.1 i.2) w = step w i from rfl] at h
  exact effect_origin hI.2 hi.1 hi.2 h

end Call

/-! ## Runs -/

theorem accesses_remember : ∀ (ops : List (Resolver × Op)) (w : World) (log : Bytes → List Access),
    Inv Good w ∧ w.fails = [] → RunOk step Admits w ops →
    (∀ r ∈ w.table.rows, Remembers (log r.key) r) →
    ∀ r ∈ (run step w ops).2.table.rows, Remembers (accesses r.key w ops (log r.key)) r
  | [], _, _, _, _, hlog => hlog
  | i :: is, w, log, hI, hops, hlog => by
    exact accesses_remember is (step w i).2
      (fun k => note k w i.2 (step w i).1 (step w i).2 (log k)) (step_inv w i hI hops.1).1 hops.2
      fun r hr => (step_origin hI hops.1 r hr).remembers hlog

/-- After every run, every row is what the log of its key says; and a call that is no access to a
row leaves its `freq`, `timestamp` and `eff` as they are. -/
theorem run_remembers {M : UInt64} (hM : M ≠ 0) (ops : List (Resolver × Op))
    (hops : RunOk step Admits (start M) ops) :
    let w := (run step (start M) ops).2
    (∀ r ∈ w.table.rows, Remembers (accesses r.key (start M) ops []) r)
      ∧ ∀ i, Admits w i → ∀ r ∈ w.table.rows, ∀ r' ∈ (step w i).2.table.rows,
        r'.key = r.key → ¬ Accesses i.2 r.key → r'.cols = r.cols := by
  constructor
  · refine accesses_remember ops (start M) (fun _ => []) ⟨inv_start hM, start_fails hM⟩ hops ?_
    rw [start_table hM]
    exact fun _ hr => absurd hr List.not_mem_nil
  · intro i hi r hr r' hr' hkey hop
    exact (step_origin (run_inv hM ops hops) hi r' hr').cols hr hkey hop

/-- The second file is put, renewed out of order, evicted by the third and put again. -/
theorem run_remembers_ten :
    let ops : List (Resolver × Op) := [(.first, .put ⟨[97], 4, 0, [], ⟨1, 0, 0⟩⟩),
      (.first, .renew [97] 5), (.first, .renew [97] 3), (.first, .put ⟨[98], 4, 0, [], ⟨6, 0, 0⟩⟩),
      (.first, .put ⟨[99], 6, 0, [], ⟨7, 0, 0⟩⟩), (.first, .update [99] 3),
      (.first, .put ⟨[98], 2, 0, [], ⟨4, 0, 0⟩⟩), (.first, .put ⟨[98], 3, 0, [], ⟨2, 0, 0⟩⟩)]
    let w := (run step (start 10) ops).2
    (∀ r ∈ w.table.rows, Remembers (accesses r.key (start 10) ops []) r)
      ∧ ∀ i, Admits w i → ∀ r ∈ w.table.rows, ∀ r' ∈ (step w i).2.table.rows,
        r'.key = r.key → ¬ Accesses i.2 r.key → r'.cols = r.cols :=
  run_remembers (M := 10) (by decide) _ (by decide)

end Lfuda

end XCache
