import XCache.Proofs.LfudaMirror

/-!
# Where the two LFUDAs differ

`run_untied`: as long as no two rows compare equal, SQLite has no choice, and a run does not depend
on how it would choose. So one run in which the two classes evict different files is enough
(`orders_differ`), and there the timestamps never decrease: what tells the classes apart is the
order alone. A run with such timestamps has no renewal that goes back in time
(`forward_of_chronological`).
-/

namespace XCache

namespace LfudaMirror

variable {w : Lfuda.World} {need : UInt64}

/-! ## Timestamps -/

def timestamp : Lfuda.Op → Option UInt64
  | .put c => some c.fields.timestamp
  | .renew _ ts => some ts
  | _ => none

/-- The timestamps of a run never decrease. -/
def Chronological (ops : List Lfuda.Op) : Prop := (ops.filterMap timestamp).Pairwise (· ≤ ·)

instance (ops : List Lfuda.Op) : Decidable (Chronological ops) :=
  inferInstanceAs (Decidable (List.Pairwise _ _))

/-- The timestamps a call leaves: each is that of a row there was, or the one the call came with. -/
theorem step_timestamp {R : Lfuda.Resolver} {op : Lfuda.Op} (hI : Inv Lfuda.Good w)
    (hq : w.fails = []) (ha : Admits w (R, op)) :
    ∀ r' ∈ (Lfuda.step w (R, op)).2.table.rows,
      (∃ r ∈ w.table.rows, r'.cols.timestamp = r.cols.timestamp)
        ∨ timestamp op = some (columnUInt64 r'.cols.timestamp) := by
  obtain ⟨⟨hkey, hno⟩, hcom⟩ := ha
  have heff := (Lfuda.algo R).call_effect hI.sound op
  have hb := hkey.bound
  rw [← Lfuda.call_eq, show outcome (Lfuda.call R op) w = Lfuda.step w (R, op) from rfl] at heff
  generalize (Lfuda.step w (R, op)).1 = res at heff
  generalize (Lfuda.step w (R, op)).2 = w' at heff ⊢
  have hold : ∀ r ∈ w.table.rows, (∃ r₀ ∈ w.table.rows, r.cols.timestamp = r₀.cols.timestamp)
      ∨ timestamp op = some (columnUInt64 r.cols.timestamp) := fun r hr => .inl ⟨r, hr, rfl⟩
  intro r' hr'
  cases heff with
  | put c t hc hmem ht =>
    have hrt : r' ∈ t.rows := hr'
    rw [Table.insert_rows ht, List.mem_append, List.mem_singleton] at hrt
    rcases hrt with hr | rfl
    · exact hold r' (Policy.shrink_subset (w := w.tick 1) hr)
    · refine .inr (congrArg some ?_)
      exact (column_bind c.fields.timestamp).symm
  | renewed k ts t hne hmem ht =>
    obtain ⟨r, hr, rfl⟩ := (Table.mem_update ht).1 hr'
    by_cases hk : r.key = bindText k
    · have htouch : columnUInt64 (touchRow Lfuda.touch w.metaMem.extra ts r).cols.timestamp
          = if columnUInt64 r.cols.timestamp > ts then columnUInt64 r.cols.timestamp else ts :=
        column_bind _
      rw [if_pos hk]
      by_cases hlt : columnUInt64 r.cols.timestamp > ts
      · rw [if_pos hlt] at htouch
        have hsame : (touchRow Lfuda.touch w.metaMem.extra ts r).cols.timestamp
            = r.cols.timestamp := by
          simpa [columnUInt64] using congrArg UInt64.toInt64 htouch
        exact .inl ⟨r, hr, hsame⟩
      · rw [if_neg hlt] at htouch
        exact .inr (congrArg some htouch.symm)
    · rw [if_neg hk]
      exact hold r hr
  | putRenewed c r t hc hr hk => exact absurd (Table.mem_keys.2 ⟨r, hr, hk.trans hb⟩) hcom.1
  | putGrown c r t res' w' hc hr hk => exact absurd (Table.mem_keys.2 ⟨r, hr, hk.trans hb⟩) hcom.1
  | updated k n => exact hcom.elim
  | putEvictFailed c D _ _ _ _ hf => simp [hq] at hf
  | putInsertFailed c _ _ hf => simp [hq] at hf
  | putConflict c =>
    exact hold r' (Policy.shrink_subset (w := w.tick 1) hr')
  | resizeFailed n D w₁ hn hw₁ hD _ hf => simp [hq] at hf
  | resize n w₁ hn hw₁ =>
    subst hw₁
    exact hold r' (Policy.shrink_subset
      (w := { w with metaMem := { w.metaMem with maxSize := n } }) hr')
  | _ => exact hold r' hr'

/-- In a run whose timestamps never decrease no renewal goes back in time. -/
theorem forward_of_chronological {M : UInt64} (hM : M ≠ 0)
    (is : List (Lfuda.Resolver × Lfuda.Op)) (hops : Chronological (is.map Prod.snd))
    (hr : RunOk Lfuda.step Admits (Lfuda.start M) is) :
    RunOk Lfuda.step (fun w i => Forward w i.2) (Lfuda.start M) is := by
  suffices H : ∀ (is : List (Lfuda.Resolver × Lfuda.Op)) (w : Lfuda.World),
      Inv Lfuda.Good w → w.fails = [] → Chronological (is.map Prod.snd) →
      (∀ r ∈ w.table.rows, ∀ ts ∈ (is.map Prod.snd).filterMap timestamp,
        columnUInt64 r.cols.timestamp ≤ ts) → RunOk Lfuda.step Admits w is →
      RunOk Lfuda.step (fun w i => Forward w i.2) w is by
    refine H is _ (Lfuda.inv_start hM) (Lfuda.start_fails hM) hops (fun r hr => ?_) hr
    rw [Lfuda.start_table hM] at hr
    exact absurd hr List.not_mem_nil
  intro is
  induction is with
  | nil => exact fun _ _ _ _ _ _ => trivial
  | cons i is ih =>
    intro w hI hq hchron hle hr
    obtain ⟨hI', hq'⟩ := (Lfuda.step_inv w i ⟨hI, hq⟩ hr.1.1).1
    have hafter : Chronological (is.map Prod.snd)
        ∧ ∀ t, timestamp i.2 = some t →
          ∀ ts ∈ (is.map Prod.snd).filterMap timestamp, t ≤ ts := by
      rw [Chronological, List.map_cons] at hchron
      rcases ht : timestamp i.2 with _ | t
      · rw [List.filterMap_cons_none ht] at hchron
        exact ⟨hchron, by simp⟩
      · rw [List.filterMap_cons_some ht, List.pairwise_cons] at hchron
        exact ⟨hchron.2, fun t' heq => by
          obtain rfl := Option.some.inj heq
          exact hchron.1⟩
    have hmem : ∀ ts ∈ (is.map Prod.snd).filterMap timestamp,
        ts ∈ ((i :: is).map Prod.snd).filterMap timestamp := by
      intro ts hts
      rw [List.map_cons]
      exact (List.Sublist.filterMap _ (List.sublist_cons_self _ _)).subset hts
    refine ⟨?_, ih _ hI' hq' hafter.1 (fun r' hr' ts hts => ?_) hr.2⟩
    · obtain ⟨R, op⟩ := i
      cases op with
      | renew k ts => exact fun r hr _ => hle r hr ts (by simp [timestamp])
      | _ => exact trivial
    · rcases step_timestamp hI hq hr.1 r' hr' with ⟨r, hr, heq⟩ | heq
      · rw [heq]
        exact hle r hr ts (hmem ts hts)
      · exact hafter.2 _ heq ts hts

/-! ## Where the orders differ -/

section Untied

variable {t : Lfuda.Table} (R R' : Lfuda.Resolver)

/-- SQLite has no choice. -/
def Untied (t : Lfuda.Table) : Prop := (t.rows.map Lfuda.rank).Nodup

instance (t : Lfuda.Table) : Decidable (Untied t) := inferInstanceAs (Decidable (List.Nodup _))

theorem pick_untied (h : Untied t) : R.pick t = R'.pick t := by
  have hnone : ∀ R : Lfuda.Resolver, t.rows = [] → R.pick t = none := by
    intro R h0
    rcases hr : R.pick t with _ | r
    · rfl
    · simpa [h0] using R.pick_mem hr
  rcases hr : R.pick t with _ | r
  · rw [hnone R' (R.pick_none hr)]
  rcases hr' : R'.pick t with _ | r'
  · rw [hnone R (R'.pick_none hr')] at hr
    simp at hr
  · have hle := R.pick_le hr r' (R'.pick_mem hr')
    have hge := R'.pick_le hr' r (R.pick_mem hr)
    rw [List.inj_on_of_nodup_map h (R.pick_mem hr) (R'.pick_mem hr') (le_antisymm hle hge)]

theorem order_untied : ∀ (n : ℕ) (t : Lfuda.Table), t.rows.length = n → Untied t →
    (Lfuda.policy R).order t = (Lfuda.policy R').order t
  | 0, t, hn, _ => by
    have hnil : ∀ R : Lfuda.Resolver, (Lfuda.policy R).order t = [] := fun R =>
      List.perm_nil.1 ((Policy.order_perm _ t rfl).trans (List.length_eq_zero_iff.1 hn ▸ .refl _))
    rw [hnil R, hnil R']
  | n + 1, t, hn, h => by
    rcases hr : (Lfuda.policy R).worst t with _ | r
    · rw [(Lfuda.policy R).worst_none hr] at hn
      simp at hn
    · have hr' : (Lfuda.policy R').worst t = some r := (pick_untied R R' h).symm.trans hr
      have hlen := Table.delete_length ((Lfuda.policy R).worst_mem hr)
      rw [Policy.order_some hr, Policy.order_some hr',
        order_untied n _ (by omega) (h.sublist (List.filter_sublist.map _))]

theorem shrink_untied (h : Untied w.table) (need : UInt64) :
    (Lfuda.policy R).shrink w need = (Lfuda.policy R').shrink w need := by
  have hdropped : (Lfuda.policy R).dropped w need = (Lfuda.policy R').dropped w need := by
    rw [Policy.dropped, Policy.dropped, order_untied R R' _ _ rfl h]
  rw [Policy.shrink, Policy.shrink, hdropped]
  rfl

theorem removeCache_untied (hw : Sound w) (hq : w.fails = []) (h : Untied w.table)
    (hneed : need ≤ w.metaMem.maxSize) (mark : Bytes) :
    outcome (Lfuda.removeCache R need mark) w = outcome (Lfuda.removeCache R' need mark) w := by
  have hout : ∀ R : Lfuda.Resolver, outcome (Lfuda.removeCache R need mark) w
      = (.ok (((Lfuda.policy R).dropped w need).any fun v => v.key = mark),
        (Lfuda.policy R).shrink w need) := by
    intro R
    rcases Policy.removeCache_sound (P := Lfuda.policy R) mark hw hneed with
      ⟨h1, h2⟩ | ⟨D, -, -, -, hf, -⟩
    · exact Prod.ext h1 h2
    · simp [hq] at hf
  rw [hout R, hout R', shrink_untied R R' h, Policy.dropped, Policy.dropped,
    order_untied R R' _ _ rfl h]

theorem put_untied {c : Lfuda.Cache} (hw : Sound w) (hq : w.fails = []) (hkey : KeyExact c.key)
    (hc : Common w (.put c)) (h : Untied w.table) :
    outcome (Lfuda.put R c) w = outcome (Lfuda.put R' c) w := by
  obtain ⟨hmem, hz, hmax, -, -⟩ := hc
  have hrange : ¬ (c.size = 0 ∨ c.size > w.metaMem.maxSize) :=
    not_or.2 ⟨hz, UInt64.not_lt.2 hmax⟩
  have hquery : ∀ R : Lfuda.Resolver, outcome (Lfuda.queryLfudaSingle R c.key) w
      = (.ok (Lfuda.policy R).noRow, w.tick 1) := by
    intro R
    have hrule : wp (Lfuda.queryLfudaSingle R c.key)
        (fun res w' => res = .ok (Lfuda.policy R).noRow ∧ w' = w.tick 1) w := by
      rw [Lfuda.queryLfudaSingle, Policy.wp_querySingle]
      refine ⟨fun hf => by simp [hq] at hf, fun _ => ⟨?_, rfl⟩⟩
      rw [hkey.bound, Table.find_none.2 hmem]
      rfl
    exact Prod.ext hrule.1 hrule.2
  by_cases hk : c.key = []
  · rw [Lfuda.put, Lfuda.put, outcome_bind_throws hk, outcome_bind_throws hk]
  · have hroom := removeCache_untied R R' (w := w.tick 1) (hw.tick 1) hq h hmax []
    rw [Lfuda.put, Lfuda.put, outcome_bind_throwIf hk, outcome_bind_throwIf hk,
      outcome_bind_ok (outcome_get w), outcome_bind_ok (outcome_get w),
      outcome_bind_throwIf hrange, outcome_bind_throwIf hrange, outcome_bind_ok (hquery R),
      outcome_bind_ok (hquery R')]
    show outcome (Lfuda.removeCache R c.size [] >>= _) _
      = outcome (Lfuda.removeCache R' c.size [] >>= _) _
    rw [outcome_bind, outcome_bind, hroom]
    rfl

theorem resize_untied {n : UInt64} (hw : Sound w) (hq : w.fails = []) (hn : n ≠ 0)
    (h : Untied w.table) : outcome (Lfuda.resize R n) w = outcome (Lfuda.resize R' n) w := by
  have hroom := removeCache_untied R R' (w := { w with metaMem := { w.metaMem with maxSize := n } })
    (hw.of_eq rfl rfl hn) hq h UInt64.zero_le []
  rw [Lfuda.removeCache, Lfuda.removeCache] at hroom
  rw [Lfuda.resize, Lfuda.resize, Policy.resize, Policy.resize, outcome_bind_throwIf hn,
    outcome_bind_throwIf hn, outcome_bind_ok (outcome_modify _ w),
    outcome_bind_ok (outcome_modify _ w), outcome_bind, outcome_bind, hroom]

/-- Where SQLite has no choice, one call does not depend on it. -/
theorem step_untied (hI : Inv Lfuda.Good w) (hq : w.fails = []) {op : Lfuda.Op}
    (hkey : KeyExact op.key) (hc : Common w op) (h : Untied w.table) :
    Lfuda.step w (R, op) = Lfuda.step w (R', op) := by
  cases op with
  | put c => exact outcome_map_congr _ (put_untied R R' hI.sound hq hkey hc h)
  | renew k ts => rfl
  | update k n => exact hc.elim
  | resize n => exact outcome_map_congr _ (resize_untied R R' hI.sound hq hc h)
  | query k => exact hc.elim
  | backup => exact hc.elim

/-- In a run in which SQLite never has a choice, it does not depend on how it would choose. -/
theorem run_untied : ∀ (is : List (Lfuda.Resolver × Lfuda.Op)) (w : Lfuda.World),
    Inv Lfuda.Good w → w.fails = [] →
    RunOk Lfuda.step (fun w i => Admits w i ∧ Untied w.table) w (is.map fun i => (R, i.2)) →
    run Lfuda.step w is = run Lfuda.step w (is.map fun i => (R, i.2))
  | [], _, _, _, _ => rfl
  | (R', op) :: is, w, hI, hq, hr => by
    obtain ⟨⟨⟨ha, hc⟩, hu⟩, hr⟩ := hr
    obtain ⟨hI', hq'⟩ := (Lfuda.step_inv w (R, op) ⟨hI, hq⟩ ha).1
    rw [List.map_cons, run_cons, run_cons, step_untied R' R hI hq ha.1 hc hu,
      run_untied is _ hI' hq' hr]

end Untied

/-- The first file is renewed before the aging rises to 1 and the second put after it. The one was
accessed earlier, the other less often. -/
def crossing : List Lfuda.Op :=
  [.put ⟨[97], 4, 0, [], ⟨1, 0, 0⟩⟩, .renew [97] 2, .put ⟨[99], 4, 0, [], ⟨3, 0, 0⟩⟩, .resize 7,
    .put ⟨[98], 3, 0, [], ⟨4, 0, 0⟩⟩, .resize 6]

/-- Whatever SQLite does about ties, the two evict different files. -/
theorem orders_differ :
    ¬ ∀ (M : UInt64) (is : List (Lfuda.Resolver × Lfuda.Op)), M ≠ 0 →
      Chronological (is.map Prod.snd) → RunOk Lfuda.step Admits (Lfuda.start M) is →
      ∃ is', is'.map Prod.snd = is.map Prod.snd ∧ Lockstep M is' := by
  intro h
  obtain ⟨is, hops, hlock⟩ := h 8 (crossing.map (byKey, ·)) (by decide) (by decide) (by decide)
  have hsnd : is.map Prod.snd = crossing := hops
  have hcalls : (is.map fun i => (.call i.2 : MemoryLfuda.Op)) = crossing.map .call := by
    rw [← hsnd, List.map_map]
    rfl
  have hbyKey : (is.map fun i => (byKey, i.2)) = crossing.map (byKey, ·) := by
    rw [← hsnd, List.map_map]
    rfl
  have hrun := run_untied byKey is (Lfuda.start 8) (Lfuda.inv_start (by decide))
    (Lfuda.start_fails (by decide)) (by
      rw [hbyKey]
      decide)
  have hsame := (hlock is [] (List.append_nil is).symm).delivered
  rw [hcalls, hrun, hbyKey] at hsame
  have hkeys := congrArg (fun l => l.map (·.map Prod.fst)) hsame
  exact absurd hkeys (by decide)

end LfudaMirror

end XCache
