import XCache.Course
import XCache.Invariant
import XCache.Proofs.Eviction

/-!
# A call takes one of its courses

The body of each member function is walked through once, in a world whose rows have keys; what
holds in a world whose accounting is in order follows from that (`Proofs/Effects`).
-/

namespace XCache

variable {κ τ ε α : Type} [Columns κ]

section Tick

variable {w : World κ τ ε}

@[simp] theorem tick_table (n : ℕ) : (w.tick n).table = w.table := rfl
@[simp] theorem tick_metaMem (n : ℕ) : (w.tick n).metaMem = w.metaMem := rfl
@[simp] theorem tick_metaRow (n : ℕ) : (w.tick n).metaRow = w.metaRow := rfl
@[simp] theorem tick_delivered (n : ℕ) : (w.tick n).delivered = w.delivered := rfl
@[simp] theorem tick_fails (n : ℕ) : (w.tick n).fails = w.fails := rfl
@[simp] theorem tick_clock (n : ℕ) : (w.tick n).clock = w.clock + n := rfl

theorem tick_tick (m n : ℕ) : (w.tick m).tick n = w.tick (m + n) := by
  simp [World.tick, Nat.add_assoc]

@[simp] theorem deliver_table (l : List (Cache τ)) : (w.deliver l).table = w.table := by
  unfold World.deliver; split_ifs <;> rfl

@[simp] theorem deliver_metaMem (l : List (Cache τ)) : (w.deliver l).metaMem = w.metaMem := by
  unfold World.deliver; split_ifs <;> rfl

@[simp] theorem deliver_metaRow (l : List (Cache τ)) : (w.deliver l).metaRow = w.metaRow := by
  unfold World.deliver; split_ifs <;> rfl

@[simp] theorem deliver_fails (l : List (Cache τ)) : (w.deliver l).fails = w.fails := by
  unfold World.deliver; split_ifs <;> rfl

@[simp] theorem deliver_clock (l : List (Cache τ)) : (w.deliver l).clock = w.clock := by
  unfold World.deliver; split_ifs <;> rfl

theorem deliver_delivered (l : List (Cache τ)) :
    (w.deliver l).delivered = w.delivered ++ if l = [] then [] else [l] := by
  unfold World.deliver; split_ifs <;> simp

end Tick

namespace Policy

variable {P : Policy κ τ ε} {w : World κ τ ε} {D : List (Row κ)}

@[simp] theorem cleared_table : (P.cleared w D).table = (P.evict w D).table := deliver_table _

theorem cleared_subset {r : Row κ} (h : r ∈ (P.cleared w D).table.rows) : r ∈ w.table.rows := by
  rw [cleared_table] at h
  exact evict_subset h

@[simp] theorem cleared_metaMem : (P.cleared w D).metaMem = (P.evict w D).metaMem :=
  deliver_metaMem _

@[simp] theorem cleared_fails : (P.cleared w D).fails = w.fails := by simp [cleared]

theorem wp_querySingle {key : Bytes} {Q : Except Error (Cache τ) → World κ τ ε → Prop} :
    wp (P.querySingle key) Q w ↔
      (w.clock ∈ w.fails → Q (.error (.sqlite .failed)) (w.tick 1))
      ∧ (w.clock ∉ w.fails → Q (.ok (P.getSingle (w.table.find (bindText key)))) (w.tick 1)) :=
  wp_readWorld

/-- The entry a query for `key` returns: empty key exactly if there is none. -/
theorem getSingle_cases (hw : w.table.Keyed) (key : Bytes) :
    ((P.getSingle (w.table.find key)).key = [] ∧ key ∉ w.table.keys)
      ∨ ∃ r ∈ w.table.rows, r.key = key ∧ r.key ≠ [] ∧ bindText r.key = r.key
        ∧ (P.getSingle (w.table.find key)).key = r.key
        ∧ (P.getSingle (w.table.find key)).size = columnUInt64 r.size := by
  rcases hf : w.table.find key with _ | r
  · exact .inl ⟨rfl, Table.find_none.1 hf⟩
  · obtain ⟨hr, hk⟩ := Table.find_some.1 hf
    exact .inr ⟨r, hr, hk, hw.nonempty r hr, (hw.exact r hr).bound, hw.getRow_key hr, rfl⟩

/-- The second half of `update_size`, once room has been made for a row that is still there. -/
theorem updateSize_content {r : Row κ} {newSize : UInt64} (hw : w.table.Keyed)
    (hr : r ∈ w.table.rows) :
    wp (do
      let w ← get
      throwIf (¬ w.metaMem.cacheSize ≥ columnUInt64 r.size) (.algo .cacheSizeMismatch)
      modify fun w => { w with metaMem := { w.metaMem with
        cacheSize := w.metaMem.cacheSize - columnUInt64 r.size + newSize } }
      let changed ← Policy.updateContent r.key newSize
      throwIf (changed = 0) (.algo .fatalLogic))
      (fun res w' =>
        (res = .error (.algo .cacheSizeMismatch) ∧ w.metaMem.cacheSize < columnUInt64 r.size
          ∧ w' = w)
        ∨ (res = .error (.sqlite .failed) ∧ columnUInt64 r.size ≤ w.metaMem.cacheSize
          ∧ w.clock ∈ w.fails ∧ w' = (Algo.recount w (columnUInt64 r.size) newSize).tick 1)
        ∨ ∃ t, w.table.update r.key (Policy.setSize newSize) = some t
          ∧ columnUInt64 r.size ≤ w.metaMem.cacheSize ∧ w.clock ∉ w.fails ∧ res = .ok ()
          ∧ w' = { (Algo.recount w (columnUInt64 r.size) newSize).tick 1 with table := t }) w := by
  have hkey : bindText r.key = r.key := (hw.exact r hr).bound
  rw [wp_bind, wp_get]
  simp only []
  rw [wp_bind, wp_throwIf]
  refine ⟨fun hlt => .inl ⟨rfl, UInt64.not_le.1 hlt, rfl⟩, fun hle => ?_⟩
  have hle := not_not.1 hle
  simp only []
  rw [wp_bind, wp_modify]
  simp only []
  rw [wp_bind, Policy.updateContent, hkey, wp_writeTable]
  refine ⟨fun hfail => .inr (.inl ⟨rfl, hle, hfail, rfl⟩), fun hok => ⟨fun t ht => ?_,
    fun hn => ?_⟩⟩
  · simp only []
    rw [wp_throwIf]
    refine ⟨fun h0 => ?_, fun _ => .inr (.inr ⟨t, ht, hle, hok, rfl, rfl⟩)⟩
    exact absurd (Table.mem_keys.2 ⟨r, hr, rfl⟩) (Table.count_eq_zero.1 h0)
  · obtain ⟨t, ht⟩ := Table.update_isSome (f := Policy.setSize newSize) w.table r.key
      (fun _ => rfl) (fun _ => rfl)
    rw [show w.table.update r.key (Policy.setSize newSize) = none from hn] at ht
    cases ht

theorem updateSize_course {r : Row κ} {cache : Cache τ} {newSize : UInt64} (hw : w.table.Keyed)
    (hr : r ∈ w.table.rows) (hk : cache.key = r.key) (hz : cache.size = columnUInt64 r.size) :
    wp (P.updateSize cache newSize) (P.SizeCourse w r.key (columnUInt64 r.size) newSize) w := by
  have hrest : ∀ {v res w'}, newSize ≠ columnUInt64 r.size →
      P.Roomed w r.key (columnUInt64 r.size) newSize v →
      ((res = .error (.algo .cacheSizeMismatch) ∧ v.metaMem.cacheSize < columnUInt64 r.size
          ∧ w' = v)
        ∨ (res = .error (.sqlite .failed) ∧ columnUInt64 r.size ≤ v.metaMem.cacheSize
          ∧ v.clock ∈ v.fails ∧ w' = (Algo.recount v (columnUInt64 r.size) newSize).tick 1)
        ∨ ∃ t, v.table.update r.key (Policy.setSize newSize) = some t
          ∧ columnUInt64 r.size ≤ v.metaMem.cacheSize ∧ v.clock ∉ v.fails ∧ res = .ok ()
          ∧ w' = { (Algo.recount v (columnUInt64 r.size) newSize).tick 1 with table := t }) →
      P.SizeCourse w r.key (columnUInt64 r.size) newSize res w' := by
    rintro v res w' hne hv (⟨rfl, hlt, rfl⟩ | ⟨rfl, hle, hfail, rfl⟩ | ⟨t, ht, hle, hok, rfl, rfl⟩)
    · exact .mismatch _ hne hv hlt
    · exact .contentFailed v hne hv hle hfail
    · exact .resized v t hne hv hle hok ht
  unfold Policy.updateSize
  rw [wp_ite]
  refine ⟨fun h => .same (hz ▸ h), fun hne => ?_⟩
  rw [hz] at hne
  rw [wp_bind, wp_ite]
  constructor
  · intro hgrow
    rw [hz] at hgrow ⊢
    rw [hk]
    refine wp_mono (removeCache_course (newSize - columnUInt64 r.size) r.key hw) ?_
    intro res w' h
    rcases res with e | flag
    · exact .removal e w' hgrow h
    · cases h with
      | cleared D hD =>
        simp only []
        rw [wp_ite]
        constructor
        · intro hflag
          exact .aborted D hgrow hD (by simpa [List.any_eq_true] using hflag)
        · intro hflag
          have hmem : r.key ∉ D.map Row.key := fun hmem =>
            hflag (by simpa [List.any_eq_true] using hmem)
          have hrow : r ∈ (P.cleared w D).table.rows := by
            rw [cleared_table, mem_evict]
            exact ⟨hr, hmem⟩
          have hsub : (P.cleared w D).table.Keyed := hw.sub fun r' hr' => by
            rw [cleared_table] at hr'
            exact evict_subset hr'
          exact wp_mono (updateSize_content hsub hrow) fun res w' h =>
            hrest hne (.inl ⟨hgrow, D, hD, hmem, rfl⟩) h
  · intro hgrow
    rw [hz] at hgrow
    rw [wp_pure, hz, hk]
    simp only [Bool.false_eq_true, if_false]
    exact wp_mono (updateSize_content hw hr) fun res w' h => hrest hne (.inr ⟨hgrow, rfl⟩) h

end Policy

namespace Algo

variable (A : Algo κ τ ε α) {w : World κ τ ε}

/-- Arguments that pass both checks are accepted. -/
theorem accepts_of_checks {k : Bytes} {n : UInt64} (hk : k ≠ [])
    (hz : ¬ (n = 0 ∨ n > w.metaMem.maxSize)) : Accepts w k n := by
  rw [not_or] at hz
  exact ⟨hk, hz.1, UInt64.not_lt.1 hz.2⟩

theorem wp_map {β : Type} {x : Call κ τ ε β} {f : β → Ret τ}
    {Q : Except Error (Ret τ) → World κ τ ε → Prop} :
    wp (f <$> x) Q w ↔ wp x (fun res w' => Q (res.map f) w') w := by
  rw [map_eq_pure_bind, wp_bind]
  unfold wp
  rcases outcome x w with ⟨_ | _, _⟩ <;> exact Iff.rfl

theorem newRow_key (x : ε) (c : Cache τ) : (A.newRow x c).key = bindText c.key := by
  rw [newRow, Policy.bindRow]

theorem keyed_update {t t' : Table κ} {key : Bytes} {f : Row κ → Row κ} (ht : t.Keyed)
    (hf : ∀ r, (f r).key = r.key) (h : t.update key f = some t') : t'.Keyed := by
  have hrow : ∀ r ∈ t'.rows, ∃ r' ∈ t.rows, r.key = r'.key := by
    intro r hr
    obtain ⟨r', hr', rfl⟩ := (Table.mem_update h).1 hr
    refine ⟨r', hr', ?_⟩
    split_ifs
    · exact hf r'
    · rfl
  refine ⟨fun r hr => ?_, fun r hr => ?_⟩
  · obtain ⟨r', hr', hk⟩ := hrow r hr
    exact hk ▸ ht.exact r' hr'
  · obtain ⟨r', hr', hk⟩ := hrow r hr
    exact hk ▸ ht.nonempty r' hr'

theorem insert_course {c : Cache τ} (hw : w.table.Keyed) (hc : Accepts w c.key c.size)
    (hk : bindText c.key ∉ w.table.keys) :
    wp (do
      let _ ← A.removeCache c.size []
      let w ← get
      let tmp : Cache τ := { c with fields := A.stamp w.metaMem.extra c.fields }
      let inserted ← A.insert tmp
      throwIf (inserted = 0) (.algo .fatalLogic)
      modify fun w => { w with metaMem := { w.metaMem with
        extra := A.inserted w.metaMem.extra, cacheSize := w.metaMem.cacheSize + tmp.size } }
      return true)
      (fun res w' => A.Course w (.put c) (res.map .bool) w') (w.tick 1) := by
  rw [wp_bind]
  refine wp_mono (Policy.removeCache_course c.size [] hw) ?_
  intro res w' h
  rcases res with e | flag
  · exact .putRemoval c e w' hc hk h
  · cases h with
    | cleared D hD =>
      simp only []
      rw [wp_bind, wp_get]
      simp only []
      rw [wp_bind, Policy.insert, wp_writeTable]
      refine ⟨fun hfail => .putInsertFailed c D hc hk hD hfail, fun _ => ⟨fun t ht => ?_,
        fun hn => .putConflict c D hc hk hD hn⟩⟩
      simp only []
      rw [wp_bind, wp_throwIf]
      refine ⟨fun h1 => absurd h1 one_ne_zero, fun _ => ?_⟩
      simp only []
      rw [wp_bind, wp_modify]
      exact .put c D t hc hk hD ht

section Renew

variable (hrenew : ∀ n key a,
  wp (A.renew key a) (RenewEffect A.touch A.touched A.cost (w.tick n) key a) (w.tick n))

include hrenew

theorem renew_put_course {c : Cache τ} {r : Row κ} (hw : w.table.Keyed)
    (hc : Accepts w c.key c.size) (hr : r ∈ w.table.rows) (hk : r.key = bindText c.key)
    (hb : bindText r.key = r.key) {entry : Cache τ} (hek : entry.key = r.key)
    (hez : entry.size = columnUInt64 r.size) :
    wp (do
      let renewed ← A.renew entry.key (A.arg c)
      throwIf (renewed = false) (.algo .fatalLogic)
      if c.size > entry.size then do
        A.updateSize entry c.size
        return false
      else return false)
      (fun res w' => A.Course w (.put c) (res.map .bool) w') (w.tick 1) := by
  have hne := hw.nonempty r hr
  have hmem : r.key ∈ w.table.keys := Table.mem_keys.2 ⟨r, hr, rfl⟩
  rw [wp_bind, hek]
  refine wp_mono (hrenew 1 r.key (A.arg c)) ?_
  rintro res w' (h | ⟨n, hn, hfail⟩ | ⟨-, h⟩ | ⟨-, -, ht⟩ | ⟨t, -, -, ht⟩)
  · exact absurd h hne
  · rw [tick_tick, show 1 + (n + 1) = (1 + n) + 1 by omega]
    refine .failed _ (1 + n) ?_ ?_
    · rw [lead]
      omega
    · rw [← Nat.add_assoc]
      exact hfail
  · rw [hb] at h
    exact absurd hmem h
  · rw [tick_tick]
    rw [hb, hk] at ht
    exact .putRenewConflict c hc (hk ▸ hmem) ht
  · rw [hb, hk] at ht
    simp only []
    rw [wp_bind, wp_throwIf]
    refine ⟨fun h => absurd h (by simp), fun _ => ?_⟩
    simp only []
    rw [wp_ite]
    constructor
    · intro hgrow
      rw [hez] at hgrow
      have hr' : touchRow A.touch w.metaMem.extra (A.arg c) r ∈ t.rows :=
        (Table.mem_update ht).2 ⟨r, hr, if_pos hk⟩
      have ht' : t.Keyed :=
        keyed_update (f := touchRow A.touch w.metaMem.extra (A.arg c)) hw (fun _ => rfl) ht
      rw [wp_bind]
      refine wp_mono (Policy.updateSize_course (w := A.renewWorld (w.tick 1) t)
        (r := touchRow A.touch w.metaMem.extra (A.arg c) r) ht' hr' hek hez) ?_
      intro res w' h
      have := Course.putGrown c r t res w' hc hr hk hgrow ht h
      rcases res with e | u <;> exact this
    · intro hgrow
      rw [hez] at hgrow
      exact .putRenewed c r t hc hr hk (UInt64.not_lt.1 hgrow) ht

theorem put_course (hw : w.table.Keyed) (c : Cache τ) :
    wp (A.put c) (fun res w' => A.Course w (.put c) (res.map .bool) w') w := by
  unfold put
  rw [wp_bind, wp_throwIf]
  refine ⟨fun hk => .rejected _ _ (.inl ⟨hk, rfl⟩), fun hk => ?_⟩
  simp only []
  rw [wp_bind, wp_get]
  simp only []
  rw [wp_bind, wp_throwIf]
  refine ⟨fun hz => .rejected _ _ (.inr ⟨hk, hz, rfl⟩), fun hz => ?_⟩
  have hc : Accepts w c.key c.size := accepts_of_checks hk hz
  simp only []
  rw [wp_bind, Policy.wp_querySingle]
  refine ⟨fun hfail => .failed _ 0 (by rw [lead]; omega) hfail, fun _ => ?_⟩
  simp only []
  rw [wp_ite]
  rcases Policy.getSingle_cases hw (bindText c.key) with
    ⟨h0, hmem⟩ | ⟨r, hr, hrk, hne, hb, hek, hez⟩
  · exact ⟨fun _ => A.insert_course hw hc hmem, fun h => absurd h0 h⟩
  · refine ⟨fun h => absurd (hek.symm.trans h) hne, fun _ => ?_⟩
    exact A.renew_put_course hrenew hw hc hr hrk hb hek hez

theorem renew_course (k : Bytes) (a : α) :
    wp (A.renew k a) (fun res w' => A.Course w (.renew k a) (res.map .bool) w') w := by
  refine wp_mono (hrenew 0 k a) ?_
  rintro res w' (h | ⟨n, hn, hfail⟩ | ⟨h1, h2⟩ | ⟨h1, h2, ht⟩ | ⟨t, h1, h2, ht⟩)
  · exact .rejected _ _ ⟨h, rfl⟩
  · exact .failed _ n hn hfail
  · exact .renewMissing k a h1 h2
  · exact .renewConflict k a h1 h2 ht
  · exact .renewed k a t h1 h2 ht

omit hrenew in
theorem update_course (hw : w.table.Keyed) (k : Bytes) (n : UInt64) :
    wp (A.update k n) (fun res w' => A.Course w (.update k n) (res.map .bool) w') w := by
  unfold Policy.update
  rw [wp_bind, wp_throwIf]
  refine ⟨fun hk => .rejected _ _ (.inl ⟨hk, rfl⟩), fun hk => ?_⟩
  simp only []
  rw [wp_bind, wp_get]
  simp only []
  rw [wp_bind, wp_throwIf]
  refine ⟨fun hz => .rejected _ _ (.inr ⟨hk, hz, rfl⟩), fun hz => ?_⟩
  have hc : Accepts w k n := accepts_of_checks hk hz
  simp only []
  rw [wp_bind, Policy.wp_querySingle]
  refine ⟨fun hfail => .failed _ 0 (by rw [lead]; omega) hfail, fun _ => ?_⟩
  simp only []
  rw [wp_ite]
  rcases Policy.getSingle_cases hw (bindText k) with
    ⟨h0, hmem⟩ | ⟨r, hr, hrk, hne, -, hek, hez⟩
  · exact ⟨fun h => absurd h0 h, fun _ => .updateMissing k n hc hmem⟩
  · refine ⟨fun _ => ?_, fun h => absurd (hek.symm.trans (not_not.1 h)) hne⟩
    rw [wp_bind]
    refine wp_mono (Policy.updateSize_course (w := w.tick 1) hw hr hek hez) ?_
    intro res w' h
    have := Course.updated k n r res w' hc hr hrk h
    rcases res with e | u <;> exact this

omit hrenew in
theorem resize_course (hw : w.table.Keyed) (n : UInt64) :
    wp (A.resize n) (fun res w' => A.Course w (.resize n) (res.map fun _ => .unit) w') w := by
  unfold Policy.resize
  rw [wp_bind, wp_throwIf]
  refine ⟨fun hn => .rejected _ _ ⟨hn, rfl⟩, fun hn => ?_⟩
  simp only []
  rw [wp_bind, wp_modify]
  simp only []
  rw [wp_bind]
  refine wp_mono (Policy.removeCache_course
    (w := { w with metaMem := { w.metaMem with maxSize := n } }) 0 [] hw) ?_
  intro res w' h
  have := Course.resize (A := A) n _ res w' hn rfl h
  rcases res with e | flag <;> exact this

/-- A call on a database whose rows have keys takes one of its courses. -/
theorem call_course (hw : w.table.Keyed) (op : Op τ α) :
    A.Course w op (outcome (A.call op) w).1 (outcome (A.call op) w).2 := by
  show wp (A.call op) (A.Course w op) w
  cases op with
  | put c => exact wp_map.2 (A.put_course hrenew hw c)
  | renew k a => exact wp_map.2 (A.renew_course hrenew k a)
  | update k n => exact wp_map.2 (A.update_course hw k n)
  | resize n => exact wp_map.2 (A.resize_course hw n)
  | query k =>
    refine wp_map.2 ?_
    rw [Policy.query, wp_bind, wp_throwIf]
    refine ⟨fun hk => .rejected _ _ ⟨hk, rfl⟩, fun hk => ?_⟩
    simp only []
    rw [Policy.wp_querySingle]
    exact ⟨fun hfail => .failed _ 0 (by rw [lead]; omega) hfail, fun _ => .query k hk⟩
  | backup =>
    refine wp_map.2 ?_
    rw [Policy.backup, wp_bind, wp_get]
    simp only []
    refine wp_statement.2 ⟨fun hfail => .failed _ 0 (by rw [lead]; omega) hfail, fun _ => ?_⟩
    exact .backup

end Renew

/-! ## What every course keeps -/

variable {A} {w' : World κ τ ε} {op : Op τ α} {res : Except Error (Ret τ)}

theorem removeCourse_subset {P : Policy κ τ ε} {need : UInt64} {mark : Bytes}
    {res : Except Error Bool} (h : P.RemoveCourse w need mark res w') :
    ∀ r ∈ w'.table.rows, r ∈ w.table.rows := by
  intro r hr
  cases h with
  | cleared D => exact Policy.cleared_subset hr
  | failed D => exact Policy.evict_subset hr
  | noVictim D =>
    rw [deliver_table] at hr
    exact Policy.evict_subset hr
  | mismatch D r' => exact Policy.evict_subset (Table.delete_subset hr)

theorem removeCourse_fails {P : Policy κ τ ε} {need : UInt64} {mark : Bytes}
    {res : Except Error Bool} (h : P.RemoveCourse w need mark res w') : w'.fails = w.fails := by
  cases h with
  | cleared D => exact Policy.cleared_fails
  | failed D => exact Policy.evict_fails w D
  | noVictim D => simp
  | mismatch D r' => exact Policy.evict_fails w D

theorem roomed_subset {P : Policy κ τ ε} {v : World κ τ ε} {key : Bytes} {size n : UInt64}
    (h : P.Roomed w key size n v) : ∀ r ∈ v.table.rows, r ∈ w.table.rows := by
  intro r hr
  rcases h with ⟨-, D, -, -, rfl⟩ | ⟨-, rfl⟩
  · exact Policy.cleared_subset hr
  · exact hr

theorem roomed_fails {P : Policy κ τ ε} {v : World κ τ ε} {key : Bytes} {size n : UInt64}
    (h : P.Roomed w key size n v) : v.fails = w.fails := by
  rcases h with ⟨-, D, -, -, rfl⟩ | ⟨-, rfl⟩
  · exact Policy.cleared_fails
  · rfl

theorem keyed_sizeCourse {P : Policy κ τ ε} {key : Bytes} {size n : UInt64}
    {res : Except Error Unit} (hw : w.table.Keyed) (h : P.SizeCourse w key size n res w') :
    w'.table.Keyed := by
  cases h with
  | same => exact hw
  | removal e w' _ h => exact hw.sub (removeCourse_subset h)
  | aborted D => exact hw.sub fun _ => Policy.cleared_subset
  | mismatch v _ hv => exact hw.sub (roomed_subset hv)
  | contentFailed v _ hv =>
    have hsub : v.table.Keyed := hw.sub (roomed_subset hv)
    exact hsub
  | resized v t _ hv _ _ ht =>
    exact keyed_update (f := Policy.setSize n) (hw.sub (roomed_subset hv)) (fun _ => rfl) ht

theorem sizeCourse_fails {P : Policy κ τ ε} {key : Bytes} {size n : UInt64}
    {res : Except Error Unit} (h : P.SizeCourse w key size n res w') : w'.fails = w.fails := by
  cases h with
  | same => rfl
  | removal e w' _ h => exact removeCourse_fails h
  | aborted D => exact Policy.cleared_fails
  | mismatch v _ hv => exact roomed_fails hv
  | contentFailed v _ hv => exact (roomed_fails hv : v.fails = _)
  | resized v t _ hv => exact (roomed_fails hv : v.fails = _)

/-- Calls with keys that reach SQLite as they are leave such keys. -/
theorem Course.keyed (h : A.Course w op res w') (hw : w.table.Keyed) (hk : KeyExact op.key) :
    w'.table.Keyed := by
  cases h with
  | putRemoval c e w' _ _ h => exact hw.sub (removeCourse_subset (w := w.tick 1) h)
  | putInsertFailed c D => exact hw.sub fun _ => Policy.cleared_subset (w := w.tick 1)
  | putConflict c D => exact hw.sub fun _ => Policy.cleared_subset (w := w.tick 1)
  | put c D t hc _ _ ht =>
    have hv : (A.cleared (w.tick 1) D).table.Keyed :=
      hw.sub fun _ => Policy.cleared_subset (w := w.tick 1)
    have hkey : (A.newRow (A.cleared (w.tick 1) D).metaMem.extra c).key = c.key :=
      (A.newRow_key _ c).trans hk.bound
    have hmem : ∀ r ∈ t.rows, r ∈ (A.cleared (w.tick 1) D).table.rows ∨ r.key = c.key := by
      intro r hr
      rw [Table.insert_rows ht, List.mem_append, List.mem_singleton] at hr
      rcases hr with hr | rfl
      · exact .inl hr
      · exact .inr hkey
    refine ⟨fun r hr => ?_, fun r hr => ?_⟩
    · rcases hmem r hr with h | h
      · exact hv.exact r h
      · exact h ▸ hk
    · rcases hmem r hr with h | h
      · exact hv.nonempty r h
      · exact h ▸ hc.1
  | putRenewed c r t _ _ _ _ ht =>
    exact keyed_update (f := touchRow A.touch w.metaMem.extra (A.arg c)) hw (fun _ => rfl) ht
  | putGrown c r t res' w' _ _ _ _ ht hs =>
    exact keyed_sizeCourse (w := A.renewWorld (w.tick 1) t)
      (keyed_update (f := touchRow A.touch w.metaMem.extra (A.arg c)) hw (fun _ => rfl) ht) hs
  | renewed k a t _ _ ht =>
    exact keyed_update (f := touchRow A.touch w.metaMem.extra a) hw (fun _ => rfl) ht
  | updated k n r res' w' _ _ _ hs => exact keyed_sizeCourse (w := w.tick 1) hw hs
  | resize n w₁ res' w' _ hw₁ h =>
    have hw₁ : w₁.table.Keyed := hw₁ ▸ hw
    exact hw₁.sub (removeCourse_subset h)
  | _ => exact hw

theorem Course.fails (h : A.Course w op res w') : w'.fails = w.fails := by
  cases h with
  | putRemoval c e w' _ _ h => exact removeCourse_fails (w := w.tick 1) h
  | putInsertFailed c D => exact Policy.cleared_fails (w := w.tick 1)
  | putConflict c D => exact Policy.cleared_fails (w := w.tick 1)
  | put c D => exact Policy.cleared_fails (w := w.tick 1)
  | putGrown c r t res' w' _ _ _ _ _ hs =>
    exact sizeCourse_fails (w := A.renewWorld (w.tick 1) t) hs
  | updated k n r res' w' _ _ _ hs => exact sizeCourse_fails (w := w.tick 1) hs
  | resize n w₁ res' w' _ hw₁ h =>
    rw [removeCourse_fails h, hw₁]
  | _ => rfl

end Algo

end XCache
