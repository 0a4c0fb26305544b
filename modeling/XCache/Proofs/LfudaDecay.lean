import XCache.Lib.Decay
import XCache.Proofs.LfudaAging

/-!
# The SQLite-backed LFUDA is a cache by frequency that forgets

`global_aging` only ever measures the `eff` of the others: counted from it, a row's `eff` is the
credit of an entry of `Decay`. An access writes `freq` plus `global_aging`, which is a credit of
`freq`; an eviction raises `global_aging`, which takes from every credit alike. A call of the class
is one of the abstract calls (`step_decays`), where the ties are resolved by `freq` and then as the
class resolves them.
-/

namespace XCache

namespace Lfuda

open Recency (Answer)

/-- A row, and what the program holds of it, as an entry. -/
def decayEntry (x : UInt64) (r : Row) : Decay.Entry Bytes :=
  ⟨r.key, r.bytes, freq r, eff r - x.toNat⟩

def file (c : Cache) : Bytes × ℕ := (c.key, c.size.toNat)

/-- The cache a cache object stands for. -/
def decay (w : World) : Decay Bytes where
  entries := Multiset.ofList (w.table.rows.map (decayEntry w.metaMem.extra))
  limit := w.metaMem.maxSize.toNat
  delivered := w.delivered.map (·.map file)

def decayOp : Op → Recency.Op Bytes
  | .put c => .put c.key c.size.toNat
  | .renew k _ => .renew k
  | .update k n => .update k n.toNat
  | .resize n => .resize n.toNat
  | .query k => .query k
  | .backup => .idle

/-- What the abstract call answers; nothing for an error of the database. -/
def answer : Except Error Ret → Option (Answer Bytes)
  | .ok .unit => some .unit
  | .ok (.bool b) => some (.bool b)
  | .ok (.entry c) => some (.found (if c.key = [] then none else some (file c)))
  | .error (.algo e) => if e.IsArgument then some .rejected else none
  | .error _ => none

/-- Besides, `eff` is no less than `freq`: it was `freq` plus some `global_aging`. -/
def Counted (t : Table) (x : UInt64) : Prop := Good t x ∧ ∀ r ∈ t.rows, freq r ≤ eff r

theorem keeps_counted (R : Resolver) : (algo R).Keeps Counted where
  evict hg hr := ⟨(keeps R).evict hg.1 hr, fun r' hr' => hg.2 r' (Table.delete_subset hr')⟩
  insert_isSome hg := (keeps R).insert_isSome hg.1
  insert := by
    intro t t' x c hg hx ht
    refine ⟨(keeps R).insert hg.1 hx ht, fun r hr => ?_⟩
    rw [Table.insert_rows ht, List.mem_append, List.mem_singleton] at hr
    rcases hr with hr | rfl
    · exact hg.2 r hr
    · have hx' : (x.toNat : ℤ) + 1 < 2 ^ 63 := hx
      rw [newRow_freq, newRow_eff R c (by omega)]
      omega
  renew_isSome hg := (keeps R).renew_isSome hg.1
  renew := by
    intro t t' x a r hg hr hx ht
    refine ⟨(keeps R).renew hg.1 hr hx ht, fun r' hr' => ?_⟩
    obtain ⟨r₀, h₀, rfl⟩ := (Table.mem_update ht).1 hr'
    split_ifs with hk
    · have hx' : (freq r : ℤ) + 1 + x.toNat < 2 ^ 63 := hx
      rw [Table.eq_of_key h₀ hr hk, show (algo R).touch = touch from rfl,
        touchRow_freq a (x := x) (by omega), touchRow_eff a (by omega)]
      omega
    · exact hg.2 r₀ h₀
  setSize := by
    intro t t' x key n hg ht
    refine ⟨(keeps R).setSize hg.1 ht, fun r' hr' => ?_⟩
    obtain ⟨r₀, h₀, rfl⟩ := (Table.mem_update ht).1 hr'
    split_ifs
    · exact hg.2 r₀ h₀
    · exact hg.2 r₀ h₀

/-! ## What leaves -/

section Sheds

variable {R : Resolver} {w : World} {r : Row} {need : UInt64}

theorem toInt_freq (h : freq r < 2 ^ 63) : r.cols.freq.toInt = freq r := by
  have hnat : freq r = r.cols.freq.toBitVec.toNat := rfl
  rw [← Int64.toInt_toBitVec, BitVec.toInt_eq_toNat_of_lt (by omega), hnat]

theorem decay_entries (w : World) :
    (decay w).entries = Multiset.ofList (w.table.rows.map (decayEntry w.metaMem.extra)) :=
  rfl

theorem mem_decay {e : Decay.Entry Bytes} :
    e ∈ (decay w).entries ↔ ∃ r ∈ w.table.rows, decayEntry w.metaMem.extra r = e := by
  rw [decay_entries, Multiset.mem_coe, List.mem_map]

/-- The least `eff` is the least credit. -/
theorem decay_next (hg : Counted w.table w.metaMem.extra) (hr : R.pick w.table = some r) :
    (decay w).Next (decayEntry w.metaMem.extra r) where
  mem := mem_decay.2 ⟨r, R.pick_mem hr, rfl⟩
  least := by
    intro e he
    obtain ⟨r', hr', rfl⟩ := mem_decay.1 he
    have hv := R.pick_mem hr
    have hlt := (hg.1 r hv).eff_lt
    have hlt' := (hg.1 r' hr').eff_lt
    have hage := (hg.1 r hv).aging_le
    have hf := hg.2 r hv
    have hf' := hg.2 r' hr'
    show eff r - w.metaMem.extra.toNat < eff r' - w.metaMem.extra.toNat
      ∨ eff r - w.metaMem.extra.toNat = eff r' - w.metaMem.extra.toNat ∧ freq r ≤ freq r'
    rcases Prod.Lex.toLex_le_toLex.1 (R.pick_le hr r' hr') with h | ⟨h, h'⟩
    · have heff : r.cols.eff.toInt < r'.cols.eff.toInt := h
      rw [toInt_eff hlt, toInt_eff hlt'] at heff
      exact .inl (by omega)
    · have heff : r.cols.eff.toInt = r'.cols.eff.toInt := h
      have hfreq : r.cols.freq.toInt ≤ r'.cols.freq.toInt := by
        rcases Prod.Lex.toLex_le_toLex.1 h' with h | h
        · exact le_of_lt h
        · exact le_of_eq h.1
      rw [toInt_eff hlt, toInt_eff hlt'] at heff
      rw [toInt_freq (by omega), toInt_freq (by omega)] at hfreq
      exact .inr ⟨by omega, by omega⟩

theorem decay_evictOne (hg : Counted w.table w.metaMem.extra) (hr : R.pick w.table = some r) :
    decay ((policy R).evictOne w r) = (decay w).evict (decayEntry w.metaMem.extra r) := by
  refine Decay.ext ?_ rfl rfl
  have hage := (hg.1 r (R.pick_mem hr)).aging_le
  have hrow : ∀ r' : Row, decayEntry (columnUInt64 r.cols.eff) r'
      = (decayEntry w.metaMem.extra r').decay (decayEntry w.metaMem.extra r).credit := by
    intro r'
    refine Decay.Entry.ext rfl rfl rfl ?_
    show eff r' - eff r
      = eff r' - w.metaMem.extra.toNat - (eff r - w.metaMem.extra.toNat)
    omega
  show Multiset.ofList ((w.table.delete r.key).rows.map (decayEntry (columnUInt64 r.cols.eff)))
    = ((Multiset.ofList (w.table.rows.map (decayEntry w.metaMem.extra))).filter _).map _
  rw [Multiset.filter_coe, Multiset.map_coe, List.filter_map, List.map_map]
  exact congrArg _ (List.map_congr_left fun r' _ => hrow r')

theorem decay_used (w : World) : (decay w).used = w.table.total := by
  rw [Decay.used, decay_entries, Multiset.map_coe, Multiset.sum_coe, List.map_map]
  rfl

/-- The rows `remove_cache` evicts are entries that may leave, one after the other. -/
theorem sheds_dropped (hw : Sound w) (hg : Counted w.table w.metaMem.extra)
    (hneed : need ≤ w.metaMem.maxSize)
    (hsum : w.metaMem.cacheSize.toNat + need.toNat < 2 ^ 64) :
    ∃ gone, gone.map Decay.Entry.file
        = ((policy R).dropped w need).map (fun r => (r.key, r.bytes))
      ∧ Decay.Sheds need.toNat (decay w) gone
        (decay ((policy R).evict w ((policy R).dropped w need))) := by
  refine Policy.dropped_induction (P := policy R) (C := fun w D =>
    Counted w.table w.metaMem.extra →
      ∃ gone, gone.map Decay.Entry.file = D.map (fun r => (r.key, r.bytes))
        ∧ Decay.Sheds need.toNat (decay w) gone (decay ((policy R).evict w D)))
    (fun w hw hfits _ => ?_) (fun w r D hw hover hr hnext hg => ?_) hw hneed hsum hg
  · rw [← decay_used] at hfits
    exact ⟨[], rfl, .fits hfits⟩
  · obtain ⟨gone, hfiles, hsheds⟩ := hnext ((keeps_counted R).evict hg hr)
    rw [← decay_used] at hover
    rw [decay_evictOne hg hr] at hsheds
    refine ⟨decayEntry w.metaMem.extra r :: gone, ?_, .evict hover (decay_next hg hr) hsheds⟩
    rw [List.map_cons, List.map_cons, hfiles]
    rfl

theorem file_getRow (hw : w.table.Plain) (hr : r ∈ w.table.rows) :
    file ((policy R).getRow r) = (r.key, r.bytes) :=
  Prod.ext (hw.getRow_key (P := policy R) hr) rfl

theorem decay_shrink (hw : Sound w) (hg : Counted w.table w.metaMem.extra)
    (hneed : need ≤ w.metaMem.maxSize)
    (hsum : w.metaMem.cacheSize.toNat + need.toNat < 2 ^ 64) :
    Decay.MakesRoom need.toNat (decay w) (decay ((policy R).shrink w need)) := by
  obtain ⟨gone, hfiles, hsheds⟩ := sheds_dropped (R := R) hw hg hneed hsum
  have hout : ((policy R).dropped w need).map (fun r => (r.key, r.bytes))
      = (((policy R).dropped w need).map (policy R).getRow).map file := by
    rw [List.map_map]
    refine List.map_congr_left fun r hr => (file_getRow hw.plain ?_).symm
    exact Policy.mem_order.1 ((Policy.dropped_isPrefix need).subset hr)
  refine ⟨gone, _, hsheds, ?_⟩
  rw [Decay.deliver, hfiles, hout]
  rcases hd : (policy R).dropped w need with _ | ⟨r, D⟩
  · rw [hd] at hfiles
    rw [if_pos (List.map_eq_nil_iff.1 hfiles), Policy.shrink, hd]
    rfl
  · rw [hd] at hfiles
    have hne : gone ≠ [] := by
      rintro rfl
      simp at hfiles
    rw [if_neg hne, Policy.shrink, hd]
    refine Decay.ext rfl rfl ?_
    show (((policy R).evict w (r :: D)).delivered ++ [_]).map _ = _
    rw [List.map_append]
    rfl

end Sheds

/-! ## One call -/

section Step

variable {R : Resolver} {w w' : World} {r : Row} {t : Table}

theorem absent {key : Bytes} (h : key ∉ w.table.keys) : (decay w).Absent key := by
  intro e he hk
  obtain ⟨r, hr, rfl⟩ := mem_decay.1 he
  exact h (Table.mem_keys.2 ⟨r, hr, hk⟩)

theorem decay_insert {c : Cache} (hx : w.metaMem.extra.toNat + 1 < 2 ^ 63) (hk : KeyExact c.key)
    (ht : w.table.insert ((algo R).newRow w.metaMem.extra c) = some t) :
    decay ((algo R).insertWorld w t c.size) = (decay w).push c.key c.size.toNat := by
  have hrow : decayEntry w.metaMem.extra ((algo R).newRow w.metaMem.extra c)
      = ⟨c.key, c.size.toNat, 1, 1⟩ := by
    unfold decayEntry
    rw [Algo.newRow_key, Algo.newRow_bytes, hk.bound, newRow_freq, newRow_eff R c hx,
      Nat.add_sub_cancel_left]
  refine Decay.ext ?_ rfl rfl
  show Multiset.ofList (t.rows.map (decayEntry w.metaMem.extra)) = _ ::ₘ Multiset.ofList _
  rw [Table.insert_rows ht, List.map_append, List.map_singleton, hrow, Multiset.cons_coe,
    Multiset.coe_eq_coe]
  exact List.perm_append_singleton _ _

/-- An access gives its row a credit of `freq`, whatever it had. -/
theorem decay_renew {ts : UInt64} (hr : r ∈ w.table.rows)
    (hx : freq r + 1 + w.metaMem.extra.toNat < 2 ^ 63)
    (ht : w.table.update r.key (touchRow touch w.metaMem.extra ts) = some t) :
    decay ((algo R).renewWorld w t) = (decay w).touch r.key := by
  refine Decay.ext ?_ rfl rfl
  show Multiset.ofList (t.rows.map (decayEntry w.metaMem.extra)) = (Multiset.ofList _).map _
  rw [Table.update_rows ht, Multiset.map_coe, List.map_map, List.map_map]
  refine congrArg _ (List.map_congr_left fun r' hr' => ?_)
  by_cases hk : r'.key = r.key
  · rw [Table.eq_of_key hr' hr hk]
    simp only [Function.comp_apply, if_true, decayEntry, Decay.Entry.use]
    rw [touchRow_freq ts hx, touchRow_eff ts hx, Nat.add_sub_cancel]
    rfl
  · simp only [Function.comp_apply, hk, if_false, decayEntry]

theorem decay_setSize {key : Bytes} {n : UInt64} {m : Meta UInt64}
    (hm : m.maxSize = w.metaMem.maxSize) (hx : m.extra = w.metaMem.extra)
    (ht : w.table.update key (Policy.setSize n) = some t) :
    decay { w with table := t, metaMem := m } = (decay w).setSize key n.toNat := by
  refine Decay.ext ?_ (congrArg UInt64.toNat hm) rfl
  show Multiset.ofList (t.rows.map (decayEntry m.extra)) = (Multiset.ofList _).map _
  rw [Table.update_rows ht, hx, Multiset.map_coe, List.map_map, List.map_map]
  refine congrArg _ (List.map_congr_left fun r _ => ?_)
  by_cases hk : r.key = key
  · have hset := Algo.setSize_bytes n r
    simp only [Function.comp_apply, hk, if_true, decayEntry]
    rw [hset]
    exact Decay.Entry.ext hk rfl rfl rfl
  · simp only [Function.comp_apply, hk, if_false, decayEntry]

theorem setSize_of_absent {s : Decay Bytes} {key : Bytes} (size : ℕ) (h : s.Absent key) :
    s.setSize key size = s := by
  refine Decay.ext ?_ rfl rfl
  show s.entries.map _ = s.entries
  conv_rhs => rw [← Multiset.map_id s.entries]
  exact Multiset.map_congr rfl fun e he => if_neg (h e he)

theorem decay_sizeEffect {n : UInt64} {res : Except Error Unit} (hw : Sound w)
    (hg : Counted w.table w.metaMem.extra) (hq : w.fails = []) (hr : r ∈ w.table.rows)
    (hn : n ≤ w.metaMem.maxSize)
    (hsum : w.metaMem.cacheSize.toNat + (n.toNat - r.bytes) < 2 ^ 64)
    (h : (algo R).SizeEffect w r.key (columnUInt64 r.size) n res w') :
    Decay.ChangesSize r.key r.bytes n.toNat (decay w) (decay w') := by
  have hgrow : r.bytes < n.toNat ↔ n > columnUInt64 r.size := Row.bytes_lt.symm
  have hroom : n > columnUInt64 r.size → Decay.MakesRoom (n.toNat - r.bytes) (decay w)
      (decay ((policy R).shrink w (n - columnUInt64 r.size))) := by
    intro hlt
    have hneed := Row.growth hlt
    rw [← hneed]
    exact decay_shrink hw hg (Row.growth_le hlt hn) (by omega)
  unfold Decay.ChangesSize
  cases h with
  | same heq =>
    rw [if_neg (by rw [heq]; exact lt_irrefl _)]
    refine Decay.ext ?_ rfl rfl
    show (decay w).entries = (decay w).entries.map _
    conv_lhs => rw [← Multiset.map_id (decay w).entries]
    refine Multiset.map_congr rfl fun e he => ?_
    obtain ⟨r', hr', rfl⟩ := mem_decay.1 he
    split_ifs with hk
    · rw [Table.eq_of_key hr' hr hk, heq]
      rfl
    · rfl
  | evictFailed D _ _ _ hfail => simp [hq] at hfail
  | aborted hlt hmem =>
    rw [if_pos (hgrow.2 hlt)]
    refine ⟨_, hroom hlt, (setSize_of_absent _ ?_).symm⟩
    exact absent (Policy.not_mem_shrink hmem)
  | contentFailed _ _ hfail => simp [hq] at hfail
  | resized t hne hs _ ht =>
    have hset : decay { (Algo.recount ((algo R).roomFor w (columnUInt64 r.size) n)
          (columnUInt64 r.size) n).tick 1 with table := t }
        = (decay ((algo R).roomFor w (columnUInt64 r.size) n)).setSize r.key n.toNat :=
      decay_setSize (w := ((algo R).roomFor w (columnUInt64 r.size) n).tick 1) rfl rfl ht
    rw [hset]
    by_cases hlt : n > columnUInt64 r.size
    · rw [if_pos (hgrow.2 hlt), Algo.roomFor, if_pos hlt]
      exact ⟨_, hroom hlt, rfl⟩
    · rw [if_neg (mt hgrow.1 hlt), Algo.roomFor, if_neg hlt]

theorem decay_accepts {key : Bytes} {n : UInt64} (h : Algo.Accepts w key n) :
    Decay.Accepts [] (decay w) key n.toNat :=
  ⟨h.1, fun h0 => h.2.1 (UInt64.toNat_inj.1 h0), UInt64.le_iff_toNat_le.1 h.2.2⟩

theorem decay_rejects {op : Op} {e : AlgoError} (h : (algo R).Rejects w op e) :
    Decay.Rejects [] (decay w) (decayOp op) := by
  have hsize : ∀ n : UInt64, n = 0 ∨ n > w.metaMem.maxSize → ∀ k,
      ¬ Decay.Accepts [] (decay w) k n.toNat := by
    rintro n (rfl | h0) k hc
    · exact hc.2.1 rfl
    · exact absurd hc.2.2 (not_le.2 (UInt64.lt_iff_toNat_lt.1 h0))
  cases op with
  | put c =>
    rcases h with ⟨hk, -⟩ | ⟨-, hz, -⟩
    · exact fun hc => hc.1 hk
    · exact hsize _ hz _
  | update k n =>
    rcases h with ⟨hk, -⟩ | ⟨-, hz, -⟩
    · exact fun hc => hc.1 hk
    · exact hsize _ hz _
  | renew k a => exact h.1
  | resize n => exact congrArg UInt64.toNat h.1
  | query k => exact h.1
  | backup => exact h.elim

/-- A call is an abstract call, and answers as it does. -/
theorem step_decays (hI : Inv Counted w ∧ w.fails = []) (i : Resolver × Op) (ho : Admits w i) :
    ∃ a, answer (step w i).1 = some a
      ∧ Decay.Step [] (decay w) (decayOp i.2) a (decay (step w i).2) := by
  obtain ⟨R, op⟩ := i
  obtain ⟨hI, hq⟩ := hI
  have hg := hI.good
  have h := (algo R).call_effect hI.sound op
  have hres := Algo.effect_not_sqlite (keeps_counted R) hg ho.2 hq h
  rw [← call_eq, show outcome (call R op) w = step w (R, op) from rfl] at h hres
  have hkey : KeyExact op.key := ho.1
  have hno : (algo R).NoOverflow w op := ho.2
  have hb := hkey.bound
  have hcount : ∀ r : Row, (algo R).renewCount w.metaMem.extra r.cols < 2 ^ 63 →
      freq r + 1 + w.metaMem.extra.toNat < 2 ^ 63 := by
    intro r hx
    have : (freq r : ℤ) + 1 + w.metaMem.extra.toNat < 2 ^ 63 := hx
    omega
  generalize (step w (R, op)).1 = res at h hres ⊢
  generalize (step w (R, op)).2 = w' at h ⊢
  cases h with
  | rejected _ e hrej => exact ⟨.rejected, if_pos hrej.isArgument, .rejected (decay_rejects hrej)⟩
  | failed | putEvictFailed | putInsertFailed | putConflict | putRenewConflict | renewConflict
  | resizeFailed => exact absurd rfl (hres _)
  | put c t hc hmem ht =>
    obtain ⟨hsum, hx⟩ := (hno hc).1 hmem
    rw [show bindText c.key = c.key from hb] at hmem
    have hx' : (((algo R).shrink (w.tick 1) c.size).metaMem.extra.toNat : ℤ) + 1 < 2 ^ 63 := hx
    have hins := decay_insert (by omega) hkey ht
    have hroom := decay_shrink (R := R) (w := w.tick 1) (hI.sound.tick 1) hg hc.2.2 hsum
    refine ⟨.bool true, rfl, ?_⟩
    rw [hins]
    exact .put (decay_accepts hc) (absent hmem) hroom
  | putRenewed c r t hc hr hk hle ht =>
    have hkr : r.key = c.key := hk.trans hb
    have hover := hcount r ((hno hc).2 r hr hk).2
    have hren := decay_renew (R := R) (w := w.tick 1) hr hover (hk ▸ ht)
    have hacc := decay_accepts hc
    refine ⟨.bool false, rfl, ?_⟩
    rw [← hkr] at hacc
    rw [hren, decayOp, ← hkr]
    exact .putRenewed (e := decayEntry w.metaMem.extra r) hacc (mem_decay.2 ⟨r, hr, rfl⟩)
      (UInt64.le_iff_toNat_le.1 hle)
  | putGrown c r t res' w' hc hr hk hlt ht hs =>
    have hkr : r.key = c.key := hk.trans hb
    have hover := hcount r ((hno hc).2 r hr hk).2
    have hren := decay_renew (R := R) (w := w.tick 1) hr hover (hk ▸ ht)
    have hacc := decay_accepts hc
    have hr' : touchRow touch w.metaMem.extra c.fields.timestamp r ∈ t.rows :=
      (Table.mem_update ht).2 ⟨r, hr, if_pos hk⟩
    have hsize := decay_sizeEffect ((algo R).sound_renewWorld (hI.sound.tick 1) ht)
      ((keeps_counted R).renew hg hr ((hno hc).2 r hr hk).2 (hk ▸ ht)) hq hr' hc.2.2
      ((hno hc).2 r hr hk).1 hs
    refine ⟨.bool false, ?_, ?_⟩
    · rw [Algo.sizeEffect_ok (w := (algo R).renewWorld (w.tick 1) t) hq hs]
      rfl
    · rw [hren] at hsize
      rw [← hkr] at hacc
      rw [decayOp, ← hkr]
      exact .putGrown (e := decayEntry w.metaMem.extra r) hacc (mem_decay.2 ⟨r, hr, rfl⟩)
        (UInt64.lt_iff_toNat_lt.1 hlt) hsize
  | renewMissing k a hne hmem =>
    rw [show bindText k = k from hb] at hmem
    exact ⟨.bool false, rfl, .renewMissing hne (absent hmem)⟩
  | renewed k a t hne hmem ht =>
    obtain ⟨r, hr, hk⟩ := Table.mem_keys.1 hmem
    have hkr : r.key = k := hk.trans hb
    have hren := decay_renew (R := R) hr (hcount r (hno r hr hk)) (hk ▸ ht)
    subst hkr
    refine ⟨.bool true, rfl, ?_⟩
    rw [hren]
    exact .renewed (e := decayEntry w.metaMem.extra r) hne (mem_decay.2 ⟨r, hr, rfl⟩)
  | updateMissing k n hc hmem =>
    rw [show bindText k = k from hb] at hmem
    exact ⟨.bool false, rfl, .updateMissing (decay_accepts hc) (absent hmem)⟩
  | updated k n r res' w' hc hr hk hs =>
    have hkr : r.key = k := hk.trans hb
    have hsize := decay_sizeEffect (w := w.tick 1) (hI.sound.tick 1) hg hq hr hc.2.2
      (hno hc r hr hk) hs
    subst hkr
    refine ⟨.bool true, ?_, ?_⟩
    · rw [Algo.sizeEffect_ok (w := w.tick 1) hq hs]
      rfl
    · exact .updated (e := decayEntry w.metaMem.extra r) (decay_accepts hc)
        (mem_decay.2 ⟨r, hr, rfl⟩) hsize
  | resize n w₁ hn hw₁ =>
    subst hw₁
    have hroom := decay_shrink (R := R) (w := { w with metaMem := { w.metaMem with maxSize := n } })
      (hI.sound.of_eq rfl rfl hn) hg UInt64.zero_le
      (by rw [UInt64.toNat_zero]; exact w.metaMem.cacheSize.toNat_lt)
    exact ⟨.unit, rfl, .resize (fun h0 => hn (UInt64.toNat_inj.1 h0)) hroom⟩
  | query k hne =>
    rw [show bindText k = k from hb]
    rcases Policy.getSingle_cases (P := policy R) hI.sound.plain.keyed k with
      ⟨h0, hmem⟩ | ⟨r, hr, rfl, -, -, hkr, hz⟩
    · refine ⟨.found none, ?_, .queryMissing hne (absent hmem)⟩
      exact congrArg (some ∘ Answer.found) (if_pos h0)
    · have hfile : file ((policy R).getSingle (w.table.find r.key)) = (r.key, r.bytes) :=
        Prod.ext hkr (congrArg UInt64.toNat hz)
      have hne' : ((policy R).getSingle (w.table.find r.key)).key ≠ [] := by
        rw [hkr]
        exact hne
      refine ⟨.found (some (r.key, r.bytes)), ?_, ?_⟩
      · exact congrArg (some ∘ Answer.found) ((if_neg hne').trans (congrArg some hfile))
      · exact .query (e := decayEntry w.metaMem.extra r) hne (mem_decay.2 ⟨r, hr, rfl⟩)
  | backup => exact ⟨.unit, rfl, .idle⟩

end Step

/-! ## Runs -/

theorem decay_start {M : UInt64} (hM : M ≠ 0) : decay (start M) = ⟨0, M.toNat, []⟩ := by
  refine Decay.ext ?_ ?_ ?_
  · rw [decay_entries, start_table hM]
    rfl
  · show (start M).metaMem.maxSize.toNat = M.toNat
    rw [start_metaMem hM]
  · show (start M).delivered.map (·.map file) = []
    rw [start, init_fresh .first hM]
    rfl

theorem inv_counted {w : World} (i : Resolver × Op) (hI : Inv Counted w ∧ w.fails = [])
    (ho : Admits w i) : Inv Counted (step w i).2 ∧ (step w i).2.fails = [] := by
  rw [step, call_eq]
  obtain ⟨h1, h2, -⟩ := Algo.call_inv (keeps_counted i.1) hI.1 hI.2 ho
  exact ⟨h1, h2⟩

theorem run_decays : ∀ (w : World) (ops : List (Resolver × Op)), Inv Counted w ∧ w.fails = [] →
    RunOk step Admits w ops →
    ∃ as, (run step w ops).1.map answer = as.map some
      ∧ Decay.Run [] (decay w) (ops.map fun i => decayOp i.2) as (decay (run step w ops).2)
  | _, [], _, _ => ⟨[], rfl, .nil⟩
  | w, i :: ops, hI, hops => by
    obtain ⟨a, ha, hstep⟩ := step_decays hI i hops.1
    obtain ⟨as, has, hrun⟩ := run_decays _ ops (inv_counted i hI hops.1) hops.2
    refine ⟨a :: as, ?_, .cons hstep hrun⟩
    rw [run_cons, List.map_cons, List.map_cons, ha, has]

/-- A run of the class is a run of the cache that forgets: the rows are its entries, their `eff`
above `global_aging` their credits, and the callback gets the files that leave. -/
theorem run_refines_decay {M : UInt64} (hM : M ≠ 0) (ops : List (Resolver × Op))
    (hops : RunOk step Admits (start M) ops) :
    ∃ as, (run step (start M) ops).1.map answer = as.map some
      ∧ Decay.Run [] ⟨0, M.toNat, []⟩ (ops.map fun i => decayOp i.2) as
        (decay (run step (start M) ops).2) := by
  have hI : Inv Counted (start M) :=
    Algo.inv_empty hM (start_table hM) (start_metaMem hM)
      ⟨fun _ hr => absurd hr List.not_mem_nil, fun _ hr => absurd hr List.not_mem_nil⟩
  rw [← decay_start hM]
  exact run_decays _ ops ⟨hI, start_fails hM⟩ hops

/-- The third file takes the room of the first, whose credit of 2 the second loses. -/
theorem run_refines_decay_ten :
    let ops : List (Resolver × Op) := [(.first, .put ⟨[97], 5, 0, [], ⟨1, 0, 0⟩⟩),
      (.first, .renew [97] 2), (.first, .put ⟨[98], 4, 0, [], ⟨3, 0, 0⟩⟩), (.first, .renew [98] 4),
      (.first, .put ⟨[99], 6, 0, [], ⟨5, 0, 0⟩⟩), (.first, .update [98] 9), (.first, .query [98])]
    ∃ as, (run step (start 10) ops).1.map answer = as.map some
      ∧ Decay.Run [] ⟨0, (10 : UInt64).toNat, []⟩ (ops.map fun i => decayOp i.2) as
        (decay (run step (start 10) ops).2) :=
  run_refines_decay (by decide) _ (by decide)

end Lfuda

end XCache
