import XCache.Lib.Recency
import XCache.Proofs.LruSequence

/-!
# The SQLite-backed LRU is a recency list

The rows by sequence are the entries of a `Recency` list, oldest first, and every call of the class
does to them what the abstract call does (`step_refines`). The order of the rows is pinned down by
their sequences (`order_eq`), so it is enough to know which rows a statement leaves.
-/

namespace XCache

namespace Lru

/-- A row, and what the program holds of it, as an entry of the list. -/
def rowEntry (r : Row) : Bytes × ℕ := (r.key, r.bytes)

def entry (c : Cache) : Bytes × ℕ := (c.key, c.size.toNat)

/-- The recency list a cache object stands for. -/
def recency (w : World) : Recency Bytes where
  entries := ((policy.order w.table).map rowEntry).reverse
  limit := w.metaMem.maxSize.toNat
  delivered := w.delivered.map (·.map entry)

def recencyOp : Op → Recency.Op Bytes
  | .put c => .put c.key c.size.toNat
  | .renew k _ => .renew k
  | .update k n => .update k n.toNat
  | .resize n => .resize n.toNat
  | .query k => .query k
  | .backup => .idle

/-- What the abstract call answers; nothing for an error of the database. -/
def answer : Except Error Ret → Option (Recency.Answer Bytes)
  | .ok .unit => some .unit
  | .ok (.bool b) => some (.bool b)
  | .ok (.entry c) => some (.found (if c.key = [] then none else some (entry c)))
  | .error (.algo e) => if e.IsArgument then some .rejected else none
  | .error _ => none

/-! ## The order of the rows -/

section Order

variable {t t' : Table} {r : Row}

theorem order_sorted : ∀ (n : ℕ) (t : Table), t.rows.length = n →
    (policy.order t).Pairwise fun a b => seq a < seq b
  | 0, t, hn => by
    rw [List.length_eq_zero_iff.1 ((Policy.order_perm _ t rfl).length_eq.trans hn)]
    exact List.Pairwise.nil
  | n + 1, t, hn => by
    rcases hv : policy.worst t with _ | r
    · rw [Policy.order_none hv]
      exact List.Pairwise.nil
    · have hr := policy.worst_mem hv
      have hlen := Table.delete_length hr
      rw [Policy.order_some hv, List.pairwise_cons]
      refine ⟨fun r' hr' => ?_, order_sorted n _ (by omega)⟩
      obtain ⟨hr't, hk⟩ := Table.mem_delete.1 (Policy.mem_order.1 hr')
      refine lt_of_le_of_ne (old_le hv r' hr't) fun hs => hk ?_
      rw [seq_inj hr hr't hs]

/-- The rows by sequence are the only list of the rows that is sorted by sequence. -/
theorem order_eq {l : List Row} (hp : l.Perm t.rows)
    (hs : l.Pairwise fun a b => seq a < seq b) : policy.order t = l := by
  exact List.Perm.eq_of_pairwise (fun a b _ _ h h' => absurd h' (lt_asymm h))
    (order_sorted _ t rfl) hs ((Policy.order_perm _ t rfl).trans hp.symm)

theorem order_insert {x : Int64} {c : Cache} (hg : Good t x) (hx : x.toInt + 1 < 2 ^ 63)
    (ht : t.insert (algo.newRow x c) = some t') :
    policy.order t' = policy.order t ++ [algo.newRow x c] := by
  refine order_eq ?_ (List.pairwise_append.2
    ⟨order_sorted _ t rfl, List.pairwise_singleton _ _, fun a ha b hb => ?_⟩)
  · rw [Table.insert_rows ht]
    exact (Policy.order_perm _ t rfl).append_right _
  · rw [List.mem_singleton] at hb
    subst hb
    have hle := hg.le a (Policy.mem_order.1 ha)
    have hs : seq (algo.newRow x c) = (x + 1).toInt := rfl
    rw [toInt_succ hx] at hs
    omega

theorem order_renew {x : Int64} (hg : Good t x) (hr : r ∈ t.rows) (hx : x.toInt + 1 < 2 ^ 63)
    (ht : t.update r.key (touchRow algo.touch x ()) = some t') :
    policy.order t' = (policy.order t).filter (fun r' => r'.key ≠ r.key)
      ++ [touchRow algo.touch x () r] := by
  refine order_eq ?_ (List.pairwise_append.2
    ⟨(order_sorted _ t rfl).filter _, List.pairwise_singleton _ _, fun a ha b hb => ?_⟩)
  · refine List.Perm.trans ?_ (Table.update_perm ht hr).symm
    refine (List.perm_append_singleton _ _).trans (List.Perm.cons _ ?_)
    exact (Policy.order_perm _ t rfl).filter _
  · rw [List.mem_singleton] at hb
    subst hb
    have hle := hg.le a (Policy.mem_order.1 (List.mem_filter.1 ha).1)
    have hs : seq (touchRow algo.touch x () r) = (x + 1).toInt := rfl
    rw [toInt_succ hx] at hs
    omega

theorem order_setSize {key : Bytes} {n : UInt64} (ht : t.update key (Policy.setSize n) = some t') :
    policy.order t'
      = (policy.order t).map fun r => if r.key = key then Policy.setSize n r else r := by
  have hseq : ∀ r : Row, seq (if r.key = key then Policy.setSize n r else r) = seq r := by
    intro r
    split_ifs <;> rfl
  refine order_eq ?_ (List.pairwise_map.2 ((order_sorted _ t rfl).imp fun h => ?_))
  · rw [Table.update_rows ht]
    exact (Policy.order_perm _ t rfl).map _
  · rw [hseq, hseq]
    exact h

/-- `query_lru_all` lists the rows from the newest to the oldest. -/
theorem sorted_eq_order (t : Table) :
    t.rows.insertionSort (fun a b => seq a ≤ seq b) = policy.order t := by
  have hperm := List.perm_insertionSort (fun a b => seq a ≤ seq b) t.rows
  have hsorted : (policy.order t).Pairwise fun a b => seq a ≤ seq b :=
    (order_sorted _ t rfl).imp le_of_lt
  refine List.Perm.eq_of_pairwise (fun a b ha hb h h' => ?_) (List.pairwise_insertionSort _ _)
    hsorted (hperm.trans (Policy.order_perm _ t rfl).symm)
  exact seq_inj (hperm.mem_iff.1 ha) (Policy.mem_order.1 hb) (le_antisymm h h')

end Order

/-! ## What leaves -/

section Shed

variable {w : World} {need : UInt64}

theorem total_order (w : World) :
    Recency.total ((policy.order w.table).map rowEntry) = w.table.total := by
  have hsnd : Prod.snd ∘ rowEntry = Row.bytes := rfl
  rw [Recency.total, List.map_map, hsnd, Policy.total_order]

theorem shed_dropped (hw : Sound w) (hneed : need ≤ w.metaMem.maxSize)
    (hsum : w.metaMem.cacheSize.toNat + need.toNat < 2 ^ 64) :
    Recency.shed w.metaMem.maxSize.toNat need.toNat ((policy.order w.table).map rowEntry)
      = ((policy.dropped w need).map rowEntry,
        (policy.order (policy.evict w (policy.dropped w need)).table).map rowEntry) := by
  refine Policy.dropped_induction (P := policy) (C := fun w D =>
    Recency.shed w.metaMem.maxSize.toNat need.toNat ((policy.order w.table).map rowEntry)
      = (D.map rowEntry, (policy.order (policy.evict w D).table).map rowEntry))
    (fun w hw hfits => ?_) (fun w r D hw hover hr hnext => ?_) hw hneed hsum
  · rw [← total_order] at hfits
    rcases ho : (policy.order w.table).map rowEntry with _ | ⟨e, l⟩
    · rw [Policy.evict_nil, ho]
      rfl
    · rw [ho] at hfits
      rw [Recency.shed, if_neg (not_lt.2 hfits), Policy.evict_nil, ho]
      rfl
  · rw [← total_order] at hover
    rw [Policy.order_some hr, List.map_cons] at hover ⊢
    rw [Recency.shed, if_pos hover, Policy.evict_cons, List.map_cons]
    have hfst := congrArg Prod.fst hnext
    have hsnd := congrArg Prod.snd hnext
    exact Prod.ext (congrArg (rowEntry r :: ·) hfst) hsnd

theorem entry_getRow (hw : w.table.Plain) {r : Row} (hr : r ∈ w.table.rows) :
    entry (policy.getRow r) = rowEntry r :=
  Prod.ext (hw.getRow_key (P := policy) hr) rfl

theorem recency_shrink (hw : Sound w) (hneed : need ≤ w.metaMem.maxSize)
    (hsum : w.metaMem.cacheSize.toNat + need.toNat < 2 ^ 64) :
    recency (policy.shrink w need) = (recency w).makeRoom need.toNat := by
  have hshed := shed_dropped hw hneed hsum
  have hrev : (recency w).entries.reverse = (policy.order w.table).map rowEntry :=
    List.reverse_reverse _
  have hout : ((policy.dropped w need).map policy.getRow).map entry
      = (policy.dropped w need).map rowEntry := by
    rw [List.map_map]
    refine List.map_congr_left fun r hr => entry_getRow hw.plain ?_
    exact Policy.mem_order.1 ((Policy.dropped_isPrefix need).subset hr)
  unfold Recency.makeRoom
  rw [hrev]
  refine Recency.ext ?_ ?_ ?_
  · show ((policy.order (policy.shrink w need).table).map rowEntry).reverse = _
    rw [show (recency w).limit = w.metaMem.maxSize.toNat from rfl, hshed, Policy.shrink_table]
  · show (policy.shrink w need).metaMem.maxSize.toNat = _
    rw [Policy.shrink_maxSize]
    rfl
  · show (policy.shrink w need).delivered.map (·.map entry) = _
    rw [show (recency w).limit = w.metaMem.maxSize.toNat from rfl, hshed, Policy.shrink_delivered,
      List.map_append]
    congr 1
    rcases hd : policy.dropped w need with _ | ⟨r, D⟩
    · rfl
    · rw [hd] at hout
      simp only [List.map_cons, reduceCtorEq, if_false] at hout ⊢
      rw [hout]
      rfl

end Shed

/-! ## One call -/

section Step

variable {w w' : World}

theorem mem_entries {e : Bytes × ℕ} :
    e ∈ (recency w).entries ↔ ∃ r ∈ w.table.rows, rowEntry r = e := by
  show e ∈ ((policy.order w.table).map rowEntry).reverse ↔ _
  rw [List.mem_reverse, List.mem_map]
  simp only [Policy.mem_order]

theorem find_none {key : Bytes} (h : key ∉ w.table.keys) : (recency w).find key = none := by
  refine List.find?_eq_none.2 fun e he => ?_
  obtain ⟨r, hr, rfl⟩ := mem_entries.1 he
  rw [decide_eq_true_eq]
  exact fun hk => h (Table.mem_keys.2 ⟨r, hr, hk⟩)

theorem find_some {r : Row} {key : Bytes} (hr : r ∈ w.table.rows) (hk : r.key = key) :
    (recency w).find key = some (rowEntry r) := by
  subst hk
  rcases hf : (recency w).find r.key with _ | e
  · have := List.find?_eq_none.1 hf (rowEntry r) (mem_entries.2 ⟨r, hr, rfl⟩)
    rw [decide_eq_true_eq] at this
    exact absurd rfl this
  · obtain ⟨r', hr', rfl⟩ := mem_entries.1 (List.mem_of_find?_eq_some hf)
    have hk := List.find?_some hf
    rw [decide_eq_true_eq] at hk
    rw [Table.eq_of_key hr' hr hk]

theorem answer_entry (hw : w.table.Plain) (key : Bytes) :
    (if (policy.getSingle (w.table.find key)).key = [] then none
      else some (entry (policy.getSingle (w.table.find key)))) = (recency w).find key := by
  rcases Policy.getSingle_cases (P := policy) hw.keyed key with
    ⟨h0, hmem⟩ | ⟨r, hr, hk, hne, -, hkr, hz⟩
  · rw [find_none hmem, if_pos h0]
  · rw [find_some hr hk, if_neg (by rw [hkr]; exact hne)]
    exact congrArg some (Prod.ext hkr (congrArg UInt64.toNat hz))

theorem setSize_of_not_mem {s : Recency Bytes} {key : Bytes} (size : ℕ)
    (h : ∀ e ∈ s.entries, e.1 ≠ key) : s.setSize key size = s := by
  refine Recency.ext ?_ rfl rfl
  conv_rhs => rw [← List.map_id s.entries]
  exact List.map_congr_left fun e he => if_neg (h e he)

theorem recency_setSize {t : Table} {key : Bytes} {n : UInt64} {m : Meta Int64}
    (hmax : m.maxSize = w.metaMem.maxSize)
    (ht : w.table.update key (Policy.setSize n) = some t) :
    recency { w with table := t, metaMem := m } = (recency w).setSize key n.toNat := by
  refine Recency.ext ?_ (congrArg UInt64.toNat hmax) rfl
  show ((policy.order t).map rowEntry).reverse
    = (((policy.order w.table).map rowEntry).reverse).map _
  rw [order_setSize ht, List.map_reverse, List.map_map, List.map_map]
  congr 1
  refine List.map_congr_left fun r _ => ?_
  by_cases hk : r.key = key
  · have hset := Algo.setSize_bytes n r
    simp only [Function.comp_apply, hk, if_true, rowEntry]
    rw [hset]
    exact Prod.ext hk rfl
  · simp only [Function.comp_apply, hk, if_false, rowEntry]

theorem recency_renew {t : Table} {r : Row} (hI : Good w.table w.metaMem.extra)
    (hr : r ∈ w.table.rows) (hx : w.metaMem.extra.toInt + 1 < 2 ^ 63)
    (ht : w.table.update r.key (touchRow algo.touch w.metaMem.extra ()) = some t) :
    recency (algo.renewWorld w t) = (recency w).touch (rowEntry r) := by
  refine Recency.ext ?_ rfl rfl
  show ((policy.order t).map rowEntry).reverse
    = rowEntry r :: (((policy.order w.table).map rowEntry).reverse).filter _
  rw [order_renew hI hr hx ht, List.map_append, List.reverse_append, List.filter_reverse,
    List.filter_map]
  rfl

theorem recency_sizeEffect {r : Row} {n : UInt64} {res : Except Error Unit} (hw : Sound w)
    (hq : w.fails = []) (hr : r ∈ w.table.rows) (hn : n ≤ w.metaMem.maxSize)
    (hsum : w.metaMem.cacheSize.toNat + (n.toNat - r.bytes) < 2 ^ 64)
    (h : algo.SizeEffect w r.key (columnUInt64 r.size) n res w') :
    recency w' = (recency w).changeSize r.key r.bytes n.toNat := by
  have hgrow : n.toNat > r.bytes ↔ n > columnUInt64 r.size := Row.bytes_lt.symm
  have hroom : n > columnUInt64 r.size → recency (algo.shrink w (n - columnUInt64 r.size))
      = (recency w).makeRoom (n.toNat - r.bytes) := by
    intro hlt
    have hneed := Row.growth hlt
    rw [← hneed]
    exact recency_shrink hw (Row.growth_le hlt hn) (by omega)
  unfold Recency.changeSize
  cases h with
  | same heq =>
    rw [if_neg (by rw [heq]; exact lt_irrefl _)]
    refine Recency.ext ?_ rfl rfl
    show (recency w).entries = (recency w).entries.map _
    conv_lhs => rw [← List.map_id (recency w).entries]
    refine List.map_congr_left fun e he => ?_
    obtain ⟨r', hr', rfl⟩ := mem_entries.1 he
    split_ifs with hk
    · rw [Table.eq_of_key hr' hr hk, heq]
      rfl
    · rfl
  | evictFailed D _ _ _ hfail => simp [hq] at hfail
  | aborted hlt hmem =>
    rw [if_pos (hgrow.2 hlt), ← hroom hlt, setSize_of_not_mem]
    intro e he hk
    obtain ⟨r', hr', rfl⟩ := mem_entries.1 he
    exact Policy.not_mem_shrink hmem (Table.mem_keys.2 ⟨r', hr', hk⟩)
  | contentFailed _ _ hfail => simp [hq] at hfail
  | resized t hne hs _ ht =>
    have hset : recency { (Algo.recount (algo.roomFor w (columnUInt64 r.size) n)
          (columnUInt64 r.size) n).tick 1 with table := t }
        = (recency (algo.roomFor w (columnUInt64 r.size) n)).setSize r.key n.toNat :=
      recency_setSize (w := (algo.roomFor w (columnUInt64 r.size) n).tick 1) rfl ht
    rw [hset]
    by_cases hlt : n > columnUInt64 r.size
    · rw [if_pos (hgrow.2 hlt), ← hroom hlt, Algo.roomFor, if_pos hlt]
    · rw [if_neg (mt hgrow.1 hlt), Algo.roomFor, if_neg hlt]

theorem recency_insert {t : Table} {c : Cache} (hg : Good w.table w.metaMem.extra)
    (hx : w.metaMem.extra.toInt + 1 < 2 ^ 63) (hk : KeyExact c.key)
    (ht : w.table.insert (algo.newRow w.metaMem.extra c) = some t) :
    recency (algo.insertWorld w t c.size) = (recency w).push c.key c.size.toNat := by
  have hrow : rowEntry (algo.newRow w.metaMem.extra c) = (c.key, c.size.toNat) := by
    unfold rowEntry
    rw [Algo.newRow_key, Algo.newRow_bytes, hk.bound]
  refine Recency.ext ?_ rfl rfl
  show ((policy.order t).map rowEntry).reverse
    = (c.key, c.size.toNat) :: ((policy.order w.table).map rowEntry).reverse
  rw [order_insert hg hx ht, List.map_append, List.reverse_append, List.map_singleton, hrow]
  rfl

theorem accepts {key : Bytes} {n : UInt64} (h : Algo.Accepts w key n) :
    Recency.Accepts [] (recency w) key n.toNat :=
  ⟨h.1, fun h0 => h.2.1 (UInt64.toNat_inj.1 h0), UInt64.le_iff_toNat_le.1 h.2.2⟩

theorem rejected {op : Op} {e : AlgoError} (h : algo.Rejects w op e) :
    Recency.step [] (recency w) (recencyOp op) = (.rejected, recency w) := by
  have hsize : ∀ n : UInt64, n = 0 ∨ n > w.metaMem.maxSize →
      n.toNat = 0 ∨ n.toNat > (recency w).limit := by
    rintro n (rfl | h0)
    · exact .inl rfl
    · exact .inr (UInt64.lt_iff_toNat_lt.1 h0)
  cases op with
  | put c =>
    rcases h with ⟨hk, -⟩ | ⟨-, hz, -⟩
    · exact if_pos (.inl hk)
    · exact if_pos (.inr (hsize _ hz))
  | update k n =>
    rcases h with ⟨hk, -⟩ | ⟨-, hz, -⟩
    · exact if_pos (.inl hk)
    · exact if_pos (.inr (hsize _ hz))
  | renew k a => exact if_pos h.1
  | resize n => exact if_pos (congrArg UInt64.toNat h.1)
  | query k => exact if_pos h.1
  | backup => exact h.elim

/-- A call answers as the abstract call does, and leaves the list it leaves. -/
theorem step_refines (hI : Inv Good w ∧ w.fails = []) (op : Op) (ho : algo.Admits w op) :
    answer (step w op).1 = some (Recency.step [] (recency w) (recencyOp op)).1
      ∧ recency (step w op).2 = (Recency.step [] (recency w) (recencyOp op)).2 := by
  obtain ⟨hI, hq⟩ := hI
  have h := algo.call_effect hI.sound op
  have hres := Algo.effect_not_sqlite keeps hI.good ho.2 hq h
  rw [← call_eq, show outcome (call op) w = step w op from rfl] at h hres
  have hkey := ho.1
  have hno := ho.2
  have hb := hkey.bound
  generalize (step w op).1 = res at h hres ⊢
  generalize (step w op).2 = w' at h ⊢
  cases h with
  | rejected _ e hrej =>
    rw [rejected hrej]
    exact ⟨if_pos hrej.isArgument, rfl⟩
  | failed | putEvictFailed | putInsertFailed | putConflict | putRenewConflict | renewConflict
  | resizeFailed => exact absurd rfl (hres _)
  | put c t hc hmem ht =>
    obtain ⟨hsum, hx⟩ := (hno hc).1 hmem
    rw [show bindText c.key = c.key from hb] at hmem
    have hfind := find_none hmem
    have hins := recency_insert (keeps.shrink (w := w.tick 1) c.size hI.good) hx hkey ht
    have hroom := recency_shrink (hI.sound.tick 1) hc.2.2 hsum
    rw [recencyOp, Recency.step_put_absent (accepts hc) hfind]
    exact ⟨rfl, hins.trans (congrArg (·.push c.key c.size.toNat) hroom)⟩
  | putRenewed c r t hc hr hk hle ht =>
    have hfind := find_some hr (hk.trans hb)
    have hren := recency_renew (w := w.tick 1) hI.good hr ((hno hc).2 r hr hk).2 (hk ▸ ht)
    rw [recencyOp, Recency.step_put_renew (accepts hc) hfind (UInt64.le_iff_toNat_le.1 hle)]
    exact ⟨rfl, hren⟩
  | putGrown c r t res' w' hc hr hk hlt ht hs =>
    have hfind := find_some hr (hk.trans hb)
    have hren := recency_renew (w := w.tick 1) hI.good hr ((hno hc).2 r hr hk).2 (hk ▸ ht)
    have hr' : touchRow algo.touch w.metaMem.extra (algo.arg c) r ∈ t.rows :=
      (Table.mem_update ht).2 ⟨r, hr, if_pos hk⟩
    have hsize := recency_sizeEffect (algo.sound_renewWorld (hI.sound.tick 1) ht) hq hr' hc.2.2
      ((hno hc).2 r hr hk).1 hs
    have hkr : r.key = c.key := hk.trans hb
    rw [recencyOp, Recency.step_put_grow (accepts hc) hfind (UInt64.lt_iff_toNat_lt.1 hlt),
      Algo.sizeEffect_ok (w := algo.renewWorld (w.tick 1) t) hq hs, ← hkr]
    exact ⟨rfl, hsize.trans (congrArg (·.changeSize r.key r.bytes c.size.toNat) hren)⟩
  | renewMissing k a hne hmem =>
    rw [show bindText k = k from hb] at hmem
    have hfind := find_none hmem
    rw [recencyOp, Recency.step_renew_absent hne hfind]
    exact ⟨rfl, rfl⟩
  | renewed k a t hne hmem ht =>
    obtain ⟨r, hr, hk⟩ := Table.mem_keys.1 hmem
    have hren := recency_renew hI.good hr (hno r hr hk) (hk ▸ ht)
    rw [recencyOp, Recency.step_renew hne (find_some hr (hk.trans hb))]
    exact ⟨rfl, hren⟩
  | updateMissing k n hc hmem =>
    rw [show bindText k = k from hb] at hmem
    have hfind := find_none hmem
    rw [recencyOp, Recency.step_update_absent (accepts hc) hfind]
    exact ⟨rfl, rfl⟩
  | updated k n r res' w' hc hr hk hs =>
    have hsize := recency_sizeEffect (hI.sound.tick 1) hq hr hc.2.2 (hno hc r hr hk) hs
    have hkr : r.key = k := hk.trans hb
    rw [recencyOp, Recency.step_update (accepts hc) (find_some hr hkr),
      Algo.sizeEffect_ok (w := w.tick 1) hq hs, ← hkr]
    exact ⟨rfl, hsize⟩
  | resize n w₁ hn hw₁ =>
    subst hw₁
    have hw₁ : Sound { w with metaMem := { w.metaMem with maxSize := n } } :=
      hI.sound.of_eq rfl rfl hn
    have hroom := recency_shrink hw₁ UInt64.zero_le
      (by rw [UInt64.toNat_zero]; exact w.metaMem.cacheSize.toNat_lt)
    rw [recencyOp, Recency.step_resize fun h0 => hn (UInt64.toNat_inj.1 h0)]
    exact ⟨rfl, hroom⟩
  | query k hne =>
    rw [recencyOp, Recency.step_query hne, ← answer_entry hI.sound.plain k,
      show bindText k = k from hb]
    exact ⟨rfl, rfl⟩
  | backup => exact ⟨rfl, rfl⟩

end Step

/-! ## Runs -/

/-- The abstract call of a call of the class. -/
def recencyStep (s : Recency Bytes) (op : Op) :
    Option (Recency.Answer Bytes) × Recency Bytes :=
  (some (Recency.step [] s (recencyOp op)).1, (Recency.step [] s (recencyOp op)).2)

theorem recency_start {M : UInt64} (hM : M ≠ 0) : recency (start M) = ⟨[], M.toNat, []⟩ := by
  refine Recency.ext ?_ ?_ ?_
  · show ((policy.order (start M).table).map rowEntry).reverse = []
    rw [start_table hM]
    rfl
  · show (start M).metaMem.maxSize.toNat = M.toNat
    rw [start_metaMem hM]
  · show (start M).delivered.map (·.map entry) = []
    rw [start, init_fresh hM]
    rfl

theorem queryLruAll_entries {w : World} (hw : w.table.Plain) (hq : w.fails = []) :
    ∃ rows, outcome queryLruAll w = (.ok rows, w.tick 1)
      ∧ rows.map entry = (recency w).entries := by
  refine ⟨((policy.order w.table).map policy.getRow).reverse, ?_, ?_⟩
  · have hrule : wp queryLruAll (fun res w' =>
        res = .ok ((policy.order w.table).map policy.getRow).reverse ∧ w' = w.tick 1) w := by
      refine wp_readWorld.2 ⟨fun hf => by simp [hq] at hf, fun _ => ⟨?_, rfl⟩⟩
      rw [← sorted_eq_order]
      rfl
    exact Prod.ext hrule.1 hrule.2
  · show _ = ((policy.order w.table).map rowEntry).reverse
    rw [List.map_reverse, List.map_map]
    congr 1
    exact List.map_congr_left fun r hr => entry_getRow hw (Policy.mem_order.1 hr)

/-- A run of the class is a run of the recency list: the same answers, the rows from the newest to
the oldest are the entries, and what was handed to `remove_callback` is what has left. -/
theorem run_refines_recency {M : UInt64} (hM : M ≠ 0) (ops : List Op)
    (hops : RunOk step algo.Admits (start M) ops) :
    let w := (run step (start M) ops).2
    let abstract := run recencyStep ⟨[], M.toNat, []⟩ ops
    (run step (start M) ops).1.map answer = abstract.1
      ∧ (∃ rows, outcome queryLruAll w = (.ok rows, w.tick 1)
        ∧ rows.map entry = abstract.2.entries)
      ∧ w.metaMem.maxSize.toNat = abstract.2.limit
      ∧ w.delivered.map (·.map entry) = abstract.2.delivered := by
  intro w abstract
  have hstep : ∀ (w : World) (s : Recency Bytes) (op : Op),
      (Inv Good w ∧ w.fails = []) ∧ recency w = s → algo.Admits w op →
      answer (step w op).1 = (recencyStep s op).1
        ∧ (Inv Good (step w op).2 ∧ (step w op).2.fails = [])
        ∧ recency (step w op).2 = (recencyStep s op).2 := by
    rintro w s op ⟨hI, rfl⟩ ho
    obtain ⟨h1, h2⟩ := step_refines hI op ho
    exact ⟨h1, (step_inv w op hI ho).1, h2⟩
  have hsim := run_simulation hstep (start M) ⟨[], M.toNat, []⟩ ops
    ⟨⟨inv_start hM, start_fails hM⟩, recency_start hM⟩ hops
  obtain ⟨hans, ⟨hI, hq⟩, hrec⟩ := hsim
  obtain ⟨rows, hrows, hentries⟩ := queryLruAll_entries hI.sound.plain hq
  exact ⟨hans, ⟨rows, hrows, hentries.trans (congrArg Recency.entries hrec)⟩,
    congrArg Recency.limit hrec, congrArg Recency.delivered hrec⟩

/-- The growth of the oldest file evicts it. -/
theorem run_refines_recency_ten :
    let ops : List Op := [.put ⟨[97], 4, 0, [], ⟨0⟩⟩, .put ⟨[98], 4, 0, [], ⟨0⟩⟩,
      .put ⟨[98], 6, 0, [], ⟨0⟩⟩, .update [97] 5, .renew [97] (), .query [98], .resize 5]
    let w := (run step (start 10) ops).2
    let abstract := run recencyStep ⟨[], (10 : UInt64).toNat, []⟩ ops
    (run step (start 10) ops).1.map answer = abstract.1
      ∧ (∃ rows, outcome queryLruAll w = (.ok rows, w.tick 1)
        ∧ rows.map entry = abstract.2.entries)
      ∧ w.metaMem.maxSize.toNat = abstract.2.limit
      ∧ w.delivered.map (·.map entry) = abstract.2.delivered :=
  run_refines_recency (by decide) _ (by decide)

end Lru

end XCache
