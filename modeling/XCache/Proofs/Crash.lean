import XCache.Proofs.Backup
import XCache.Proofs.LruSequence
import XCache.Proofs.LfudaAging

/-!
# What a crash leaves to the next `init`

Rows are written at once, the meta record only by `backup`. So after a crash `init` loads the
`cache_size` of the last backup: the sum of the sizes the table had then. The LRU's check of the
sequence also tells that nothing has been inserted or renewed since; neither class can tell that
sizes have changed or rows have gone.
-/

namespace XCache

variable {κ τ ε α : Type} [Columns κ]

/-- A call, with the table of the last backup remembered. -/
def saving {ι : Type} (step : World κ τ ε → ι → Except Error (Ret τ) × World κ τ ε)
    (call : ι → Op τ α) (s : World κ τ ε × Table κ) (i : ι) :
    Except Error (Ret τ) × World κ τ ε × Table κ :=
  ((step s.1 i).1, (step s.1 i).2,
    if (call i).saves (step s.1 i).1 then s.1.table else s.2)

/-- The meta record in the database is that of a backup, made when the table was `t`. -/
structure Saved (P : Policy κ τ ε) (w : World κ τ ε) (t : Table κ) (m : Meta ε) : Prop where
  row : w.metaRow = some (P.bindMeta m)
  total : t.total = m.cacheSize.toNat

theorem Saved.effect {A : Algo κ τ ε α} {w w' : World κ τ ε} {op : Op τ α}
    {res : Except Error (Ret τ)} {t : Table κ} {m : Meta ε} (hw : Sound w)
    (hs : Saved A.toPolicy w t m) (h : A.Effect w op res w') :
    (op.saves res = false ∧ Saved A.toPolicy w' t m)
      ∨ op.saves res = true ∧ Saved A.toPolicy w' w.table w.metaMem ∧ w'.table = w.table
        ∧ w'.metaMem = w.metaMem := by
  rcases Algo.effect_metaRow h with ⟨h1, h2⟩ | ⟨h1, h2, h3, h4⟩
  · exact .inl ⟨h1, h2.trans hs.row, hs.total⟩
  · refine .inr ⟨h1, ⟨?_, hw.total⟩, h3, h4⟩
    rw [h2, hs.row]
    rfl

/-- A table without sizes to count, in which a row has been found, has no rows. -/
theorem Table.Plain.rows_nil {P : Policy κ τ ε} {t : Table κ} {o : Option (Row κ)} (ht : t.Plain)
    (hmem : ∀ {r}, o = some r → r ∈ t.rows) (hnone : o = none → t.rows = [])
    (hsize : (P.getSingle o).key ≠ [] → (P.getSingle o).size ≤ 0) : t.rows = [] := by
  rcases o with _ | r
  · exact hnone rfl
  · have hr := hmem rfl
    have hle : r.bytes ≤ 0 := UInt64.le_iff_toNat_le.1 (hsize (ht.getRow_key_ne (P := P) hr))
    have hpos := ht.pos r hr
    omega

/-- What the call `i` leaves behind, with the table of the last backup, when the process dies at
the statement `n`: the call stops there. -/
def crash {ι : Type} (step : World κ τ ε → ι → Except Error (Ret τ) × World κ τ ε)
    (call : ι → Op τ α) (s : World κ τ ε × Table κ) (n : ℕ) (i : ι) : World κ τ ε × Table κ :=
  (saving step call (s.1.faulty [n], s.2) i).2

theorem Saved.loaded {P : Policy κ τ ε} {w : World κ τ ε} {t : Table κ} {m : Meta ε}
    (h : Saved P w t m) : P.loaded (P.reopen w) = m :=
  Policy.loaded_of_row h.row

/-! ## The LRU -/

namespace Lru

/-- Every row of `t'` is one of `t`, but for its size. -/
def Older (t' t : Table) : Prop :=
  ∀ r' ∈ t'.rows, ∃ r ∈ t.rows, r.key = r'.key ∧ r.cols = r'.cols

theorem older_refl (t : Table) : Older t t := fun r hr => ⟨r, hr, rfl, rfl⟩

theorem Older.trans {t t' t'' : Table} (h : Older t'' t') (h' : Older t' t) : Older t'' t := by
  intro r'' hr''
  obtain ⟨r', hr', hk', hc'⟩ := h r'' hr''
  obtain ⟨r, hr, hk, hc⟩ := h' r' hr'
  exact ⟨r, hr, hk.trans hk', hc.trans hc'⟩

section Since

variable {w w' : World}

/-- `w'` has at most lost rows of `w` or changed their sizes. -/
def Shrunk (w w' : World) : Prop :=
  w'.metaMem.extra = w.metaMem.extra ∧ Older w'.table w.table

theorem shrunk_evict (w : World) (D : List Row) : Shrunk w (policy.evict w D) :=
  ⟨evict_extra w D, fun r hr => ⟨r, Policy.evict_subset hr, rfl, rfl⟩⟩

theorem shrunk_shrink (w : World) (need : UInt64) : Shrunk w (policy.shrink w need) := by
  refine ⟨shrink_extra w need, ?_⟩
  rw [Policy.shrink_table]
  exact (shrunk_evict w _).2

theorem shrunk_roomFor (w : World) (size n : UInt64) : Shrunk w (algo.roomFor w size n) := by
  unfold Algo.roomFor
  split_ifs
  · exact shrunk_shrink w _
  · exact ⟨rfl, older_refl _⟩

theorem shrunk_sizeEffect {key : Bytes} {size n : UInt64} {res : Except Error Unit}
    (h : algo.SizeEffect w key size n res w') : Shrunk w w' := by
  cases h with
  | same => exact ⟨rfl, older_refl _⟩
  | evictFailed D => exact shrunk_evict w D
  | aborted => exact shrunk_shrink w _
  | contentFailed => exact shrunk_roomFor w size n
  | resized t _ _ _ ht =>
    obtain ⟨hx, hold⟩ := shrunk_roomFor w size n
    refine ⟨hx, Older.trans (fun r' hr' => ?_) hold⟩
    obtain ⟨r, hr, rfl⟩ := (Table.mem_update ht).1 hr'
    refine ⟨r, hr, ?_⟩
    split_ifs <;> exact ⟨rfl, rfl⟩

/-- A call that does not write a sequence leaves no row it did not find. -/
theorem effect_shrunk {op : Op} {res : Except Error Ret} (ho : algo.NoOverflow w op)
    (h : algo.Effect w op res w') :
    Shrunk w w' ∨ w.metaMem.extra.toInt < w'.metaMem.extra.toInt := by
  have hlt : ∀ {x : Int64}, x.toInt + 1 < 2 ^ 63 → x.toInt < (x + 1).toInt := by
    intro x hx
    rw [toInt_succ hx]
    omega
  cases h with
  | rejected => exact .inl ⟨rfl, older_refl _⟩
  | failed => exact .inl ⟨rfl, older_refl _⟩
  | putEvictFailed c D => exact .inl (shrunk_evict (w.tick 1) D)
  | putInsertFailed c => exact .inl (shrunk_shrink (w.tick 1) c.size)
  | putConflict c => exact .inl (shrunk_shrink (w.tick 1) c.size)
  | put c t hc hmem =>
    have hx : (policy.shrink (w.tick 1) c.size).metaMem.extra.toInt
        < ((policy.shrink (w.tick 1) c.size).metaMem.extra + 1).toInt := hlt ((ho hc).1 hmem).2
    rw [shrink_extra] at hx
    refine .inr ?_
    show w.metaMem.extra.toInt < ((policy.shrink (w.tick 1) c.size).metaMem.extra + 1).toInt
    rw [shrink_extra]
    exact hx
  | putRenewConflict => exact .inl ⟨rfl, older_refl _⟩
  | putRenewed c r t hc hr hk => exact .inr (hlt ((ho hc).2 r hr hk).2)
  | putGrown c r t res' w' hc hr hk _ _ hs =>
    have hx := (shrunk_sizeEffect (w := algo.renewWorld (w.tick 1) t) hs).1
    rw [hx]
    exact .inr (hlt ((ho hc).2 r hr hk).2)
  | renewMissing => exact .inl ⟨rfl, older_refl _⟩
  | renewConflict => exact .inl ⟨rfl, older_refl _⟩
  | renewed k a t _ hmem =>
    obtain ⟨r, hr, hk⟩ := Table.mem_keys.1 hmem
    exact .inr (hlt (ho r hr hk))
  | updateMissing => exact .inl ⟨rfl, older_refl _⟩
  | updated k n r res' w' _ _ _ hs => exact .inl (shrunk_sizeEffect (w := w.tick 1) hs)
  | resizeFailed n D w₁ _ hw₁ =>
    subst hw₁
    exact .inl (shrunk_evict { w with metaMem := { w.metaMem with maxSize := n } } D)
  | resize n w₁ _ hw₁ =>
    subst hw₁
    exact .inl (shrunk_shrink { w with metaMem := { w.metaMem with maxSize := n } } 0)
  | query => exact .inl ⟨rfl, older_refl _⟩
  | backup => exact .inl ⟨rfl, older_refl _⟩

/-- What is known of the last backup, made when the table was `t`. -/
structure Since (w : World) (t : Table) (m : Meta Int64) : Prop where
  saved : Saved policy w t m
  le : m.extra.toInt ≤ w.metaMem.extra.toInt
  older : w.metaMem.extra = m.extra → Older w.table t

theorem Since.effect {op : Op} {res : Except Error Ret} {t : Table} {m : Meta Int64}
    (hw : Sound w) (ho : algo.NoOverflow w op) (hs : Since w t m) (h : algo.Effect w op res w') :
    ∃ m', Since w' (if op.saves res then w.table else t) m' := by
  rcases Saved.effect hw hs.saved h with ⟨h1, h2⟩ | ⟨h1, h2, h3, h4⟩
  · refine ⟨m, ?_⟩
    rw [h1]
    rcases effect_shrunk ho h with ⟨hx, hold⟩ | hlt
    · exact ⟨h2, hx ▸ hs.le, fun he => hold.trans (hs.older (hx ▸ he))⟩
    · have hle := hs.le
      refine ⟨h2, by omega, fun he => ?_⟩
      rw [he] at hlt
      omega
  · refine ⟨w.metaMem, ?_⟩
    rw [if_pos h1]
    exact ⟨h2, by rw [h4], fun _ => h3 ▸ older_refl _⟩

/-- If `init` accepts what a crash has left, it loads the record of the last backup, and rows have
only gone or changed their sizes since. -/
theorem Since.reopened {t : Table} {m : Meta Int64} (hs : Since w t m) (hp : w.table.Plain)
    (hg : Good w.table w.metaMem.extra)
    (hok : (outcome init (policy.reopen w)).1 = .ok ()) :
    policy.loaded (policy.reopen w) = m ∧ Older w.table t := by
  have hload := hs.saved.loaded
  refine ⟨hload, ?_⟩
  have heff := init_effect (policy.reopen w)
  unfold wp at heff
  rw [hok] at heff
  have hc : Check m w.table := hload ▸ heff.checked
  rcases hn : new w.table with _ | r
  · intro r hr
    rw [new_none hn] at hr
    cases hr
  · have hr := least_mem hn
    have hkey : (policy.getSingle (new w.table)).key ≠ [] := by
      rw [hn]
      exact hp.getRow_key_ne (P := policy) hr
    have hseq := hc.sequence hkey
    rw [hn] at hseq
    have hseq' : seq r = m.extra.toInt := congrArg Int64.toInt hseq
    -- the newest row carries the object's sequence, so none has been written since the backup
    obtain ⟨r', hr', hx⟩ := hg.top (List.ne_nil_of_mem hr)
    have h1 := new_le hn r' hr'
    have h2 := hg.le r hr
    exact hs.older (Int64.toInt_inj.1 (by omega))

end Since

theorem since_start {M : UInt64} (hM : M ≠ 0) : Since (start M) Table.empty ⟨0, M, 0⟩ where
  saved := ⟨by rw [start_metaRow hM, start_metaMem hM], rfl⟩
  le := by rw [start_metaMem hM]
  older _ := by
    rw [start_table hM]
    exact older_refl _

theorem run_saving {M : UInt64} (hM : M ≠ 0) (ops : List Op)
    (hops : RunOk (saving step id) (fun s => algo.Admits s.1) (start M, Table.empty) ops) :
    let s := (run (saving step id) (start M, Table.empty) ops).2
    (Inv Good s.1 ∧ s.1.fails = []) ∧ ∃ m, Since s.1 s.2 m := by
  refine run_invariant (I := fun s => (Inv Good s.1 ∧ s.1.fails = []) ∧ ∃ m, Since s.1 s.2 m)
    (fun s op hI ho => ?_) (start M, Table.empty) ops
    ⟨⟨inv_start hM, start_fails hM⟩, _, since_start hM⟩ hops
  obtain ⟨hI, m, hs⟩ := hI
  refine ⟨(step_inv s.1 op hI ho).1, ?_⟩
  have h := algo.call_effect hI.1.sound op
  rw [← call_eq] at h
  exact hs.effect hI.1.sound ho.2 h

theorem crash_since {w : World} {t : Table} {m : Meta Int64} (hI : Inv Good w) (hs : Since w t m)
    (n : ℕ) (op : Op) (ho : algo.Admits (w.faulty [n]) op) :
    let cut := crash step id (w, t) n op
    cut.1.table.Plain ∧ Good cut.1.table cut.1.metaMem.extra ∧ ∃ m', Since cut.1 cut.2 m' := by
  have hw := hI.sound.faulty [n]
  have h := algo.call_effect hw op
  rw [← call_eq] at h
  have hs' : Since (w.faulty [n]) t m := ⟨⟨hs.saved.row, hs.saved.total⟩, hs.le, hs.older⟩
  exact ⟨Algo.effect_plain hw ho.1 (Algo.NoOverflow.sums ho.2) h,
    keeps.effect (w := w.faulty [n]) hI.good ho.2 h, hs'.effect hw ho.2 h⟩

end Lru

/-! ## The LFUDA -/

namespace Lfuda

theorem reopened {R : Resolver} {w : World} {t : Table} {m : Meta UInt64}
    (hs : Saved (policy R) w t m) (hp : w.table.Plain)
    (hok : (outcome (init R) ((policy R).reopen w)).1 = .ok ()) :
    (policy R).loaded ((policy R).reopen w) = m ∧ (t.rows = [] → w.table.rows = []) := by
  have hload := hs.loaded
  refine ⟨hload, fun ht => ?_⟩
  have heff := init_effect R ((policy R).reopen w)
  unfold wp at heff
  rw [hok] at heff
  have hc : Check R m w.table := hload ▸ heff.checked
  have h0 : m.cacheSize = 0 := by
    rw [← UInt64.toNat_inj, ← hs.total, Table.total_nil ht]
    rfl
  refine hp.rows_nil (P := policy R) R.pick_mem R.pick_none fun hkey => ?_
  rw [← h0]
  exact hc.size hkey

theorem step_saved {w : World} {t : Table} {m : Meta UInt64} (hw : Sound w)
    (hs : Saved (policy .first) w t m) (i : Resolver × Op) :
    ∃ m', Saved (policy .first) (saving step Prod.snd (w, t) i).2.1
      (saving step Prod.snd (w, t) i).2.2 m' := by
  have h := (algo i.1).call_effect hw i.2
  rw [← call_eq] at h
  rcases Saved.effect (A := algo i.1) (t := t) (m := m) hw ⟨hs.row, hs.total⟩ h
    with ⟨h1, h2⟩ | ⟨h1, h2, -, -⟩
  · refine ⟨m, h2.row, ?_⟩
    simp only [saving, step, h1]
    exact h2.total
  · refine ⟨w.metaMem, h2.row, ?_⟩
    simp only [saving, step, h1]
    exact h2.total

theorem run_saving {M : UInt64} (hM : M ≠ 0) (ops : List (Resolver × Op))
    (hops : RunOk (saving step Prod.snd) (fun s => Admits s.1) (start M, Table.empty) ops) :
    let s := (run (saving step Prod.snd) (start M, Table.empty) ops).2
    (Inv Good s.1 ∧ s.1.fails = []) ∧ ∃ m, Saved (policy .first) s.1 s.2 m := by
  refine run_invariant
    (I := fun s => (Inv Good s.1 ∧ s.1.fails = []) ∧ ∃ m, Saved (policy .first) s.1 s.2 m)
    (fun s i hI ho => ?_) (start M, Table.empty) ops
    ⟨⟨inv_start hM, start_fails hM⟩, ⟨0, M, 0⟩, ?_, rfl⟩ hops
  · obtain ⟨hI, m, hs⟩ := hI
    exact ⟨(step_inv s.1 i hI ho).1, step_saved hI.1.sound hs i⟩
  · rw [start_metaRow hM, start_metaMem hM]

theorem crash_saved {w : World} {t : Table} {m : Meta UInt64} (hI : Inv Good w)
    (hs : Saved (policy .first) w t m) (n : ℕ) (i : Resolver × Op)
    (ho : Admits (w.faulty [n]) i) :
    let cut := crash step Prod.snd (w, t) n i
    cut.1.table.Plain ∧ ∃ m', Saved (policy .first) cut.1 cut.2 m' := by
  have hw := hI.sound.faulty [n]
  have h := (algo i.1).call_effect hw i.2
  rw [← call_eq] at h
  exact ⟨Algo.effect_plain hw ho.1 (Algo.NoOverflow.sums ho.2) h,
    step_saved hw ⟨hs.row, hs.total⟩ i⟩

end Lfuda

/-- In both classes: when `init` accepts the database a crash has left, it loads the sum of the
sizes at the last backup, and that is the sum of the sizes there are unless the last backup was
made with rows in the table. An LRU's rows are then those of the last backup, but for rows that
are gone and sizes that have changed. -/
theorem crash_loads {M : UInt64} (hM : M ≠ 0) :
    (∀ (ops : List Lru.Op) (n : ℕ) (op : Lru.Op),
      let s := (run (saving Lru.step id) (Lru.start M, Table.empty) ops).2
      let cut := crash Lru.step id s n op
      let object := Lru.policy.reopen cut.1
      RunOk (saving Lru.step id) (fun s => Lru.algo.Admits s.1) (Lru.start M, Table.empty) ops →
      Lru.algo.Admits (s.1.faulty [n]) op → (outcome Lru.init object).1 = .ok () →
      (Lru.policy.loaded object).cacheSize.toNat = cut.2.total ∧ Lru.Older cut.1.table cut.2
        ∧ (cut.2.rows = [] → (Lru.policy.loaded object).cacheSize.toNat = cut.1.table.total))
    ∧ ∀ (ops : List (Lfuda.Resolver × Lfuda.Op)) (n : ℕ) (i : Lfuda.Resolver × Lfuda.Op)
        (R : Lfuda.Resolver),
      let s := (run (saving Lfuda.step Prod.snd) (Lfuda.start M, Table.empty) ops).2
      let cut := crash Lfuda.step Prod.snd s n i
      let object := (Lfuda.policy R).reopen cut.1
      RunOk (saving Lfuda.step Prod.snd) (fun s => Lfuda.Admits s.1)
        (Lfuda.start M, Table.empty) ops →
      Lfuda.Admits (s.1.faulty [n]) i → (outcome (Lfuda.init R) object).1 = .ok () →
      ((Lfuda.policy R).loaded object).cacheSize.toNat = cut.2.total
        ∧ (cut.2.rows = [] →
          ((Lfuda.policy R).loaded object).cacheSize.toNat = cut.1.table.total) := by
  constructor
  · intro ops n op s cut object hops ho hok
    obtain ⟨⟨hI, -⟩, m, hs⟩ := Lru.run_saving hM ops hops
    obtain ⟨hp, hg, m', hs'⟩ := Lru.crash_since hI hs n op ho
    obtain ⟨hload, hold⟩ := hs'.reopened hp hg hok
    have htotal : (Lru.policy.loaded object).cacheSize.toNat = cut.2.total := by
      rw [hload]
      exact hs'.saved.total.symm
    refine ⟨htotal, hold, fun h0 => ?_⟩
    have hnil : cut.1.table.rows = [] := by
      refine List.eq_nil_iff_forall_not_mem.2 fun r hr => ?_
      obtain ⟨r', hr', -⟩ := hold r hr
      rw [h0] at hr'
      cases hr'
    rw [htotal, Table.total_nil h0, Table.total_nil hnil]
  · intro ops n i R s cut object hops ho hok
    obtain ⟨⟨hI, -⟩, m, hs⟩ := Lfuda.run_saving hM ops hops
    obtain ⟨hp, m', hs'⟩ := Lfuda.crash_saved hI hs n i ho
    have hs'' : Saved (Lfuda.policy R) cut.1 cut.2 m' := ⟨hs'.row, hs'.total⟩
    obtain ⟨hload, hnil⟩ := Lfuda.reopened hs'' hp hok
    have htotal : ((Lfuda.policy R).loaded object).cacheSize.toNat = cut.2.total := by
      rw [hload]
      exact hs'.total.symm
    refine ⟨htotal, fun h0 => ?_⟩
    rw [htotal, Table.total_nil h0, Table.total_nil (hnil h0)]

/-- The process dies before the content update that would shrink the file. -/
theorem crash_loads_ten :
    (let s := (run (saving Lru.step id) (Lru.start 10, Table.empty)
        [.put ⟨[97], 4, 0, [], ⟨0⟩⟩, .backup]).2
      let cut := crash Lru.step id s 6 (.update [97] 3)
      let object := Lru.policy.reopen cut.1
      (Lru.policy.loaded object).cacheSize.toNat = cut.2.total ∧ Lru.Older cut.1.table cut.2
        ∧ (cut.2.rows = [] → (Lru.policy.loaded object).cacheSize.toNat = cut.1.table.total))
    ∧ let s := (run (saving Lfuda.step Prod.snd) (Lfuda.start 10, Table.empty)
        [(.first, .put ⟨[97], 4, 0, [], ⟨1, 0, 0⟩⟩), (.first, .backup)]).2
      let cut := crash Lfuda.step Prod.snd s 6 (.first, .update [97] 3)
      let object := (Lfuda.policy .first).reopen cut.1
      ((Lfuda.policy .first).loaded object).cacheSize.toNat = cut.2.total
        ∧ (cut.2.rows = [] →
          ((Lfuda.policy .first).loaded object).cacheSize.toNat = cut.1.table.total) :=
  ⟨(crash_loads (M := 10) (by decide)).1 [.put ⟨[97], 4, 0, [], ⟨0⟩⟩, .backup] 6 (.update [97] 3)
      (by decide) (by decide) (by decide),
    (crash_loads (M := 10) (by decide)).2
      [(.first, .put ⟨[97], 4, 0, [], ⟨1, 0, 0⟩⟩), (.first, .backup)] 6 (.first, .update [97] 3)
      .first (by decide) (by decide) (by decide)⟩

/-- After a backup, an LRU's older file grows and an LFUDA takes a second, smaller file. A key
with a NUL, which `remove_cache` reads back as empty, and sizes whose sum wraps have the backup
itself write a wrong sum. -/
theorem crash_stale :
    (let s := (run (saving Lru.step id) (Lru.start 100, Table.empty)
        [.put ⟨[97], 10, 0, [], ⟨0⟩⟩, .put ⟨[98], 5, 0, [], ⟨0⟩⟩, .backup]).2
      let cut := crash Lru.step id s 9 (.update [97] 20)
      let object := Lru.policy.reopen cut.1
      (outcome Lru.init object).1 = .ok ()
        ∧ (outcome Lru.init object).2.metaMem.cacheSize = 15 ∧ cut.1.table.total = 25)
    ∧ (let s := (run (saving Lfuda.step Prod.snd) (Lfuda.start 100, Table.empty)
        [(.first, .put ⟨[97], 10, 0, [], ⟨1, 0, 0⟩⟩), (.first, .backup)]).2
      let cut := crash Lfuda.step Prod.snd s 7 (.first, .put ⟨[98], 5, 0, [], ⟨1, 0, 0⟩⟩)
      let object := (Lfuda.policy .first).reopen cut.1
      (outcome (Lfuda.init .first) object).1 = .ok ()
        ∧ (outcome (Lfuda.init .first) object).2.metaMem.cacheSize = 10
        ∧ cut.1.table.total = 15)
    ∧ (let s := (run (saving Lru.step id) (Lru.start 10, Table.empty)
        [.put ⟨[0], 4, 0, [], ⟨0⟩⟩, .put ⟨[99], 5, 0, [], ⟨0⟩⟩, .put ⟨[98], 3, 0, [], ⟨0⟩⟩]).2
      let cut := crash Lru.step id s 100 .backup
      let object := Lru.policy.reopen cut.1
      (outcome Lru.init object).1 = .ok ()
        ∧ (outcome Lru.init object).2.metaMem.cacheSize = 9 ∧ cut.1.table.total = 5)
    ∧ let s := (run (saving Lru.step id) (Lru.start 18446744073709551615, Table.empty)
        [.put ⟨[97], 18446744073709551614, 0, [], ⟨0⟩⟩, .put ⟨[98], 3, 0, [], ⟨0⟩⟩,
          .put ⟨[99], 1, 0, [], ⟨0⟩⟩]).2
      let cut := crash Lru.step id s 100 .backup
      let object := Lru.policy.reopen cut.1
      (outcome Lru.init object).1 = .ok ()
        ∧ (outcome Lru.init object).2.metaMem.cacheSize = 2
        ∧ cut.1.table.total = 18446744073709551618 := by
  decide

end XCache
