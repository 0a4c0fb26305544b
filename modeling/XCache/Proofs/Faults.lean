import XCache.Proofs.LruSequence
import XCache.Proofs.LfudaAging

/-!
# The accounting when a statement fails

A failing statement leaves the accounting intact everywhere but in one place: `update_size` changes
`cache_size` before its `UPDATE`, and nothing takes the change back when that statement throws
(`contentFails_iff`). `put`, `renew` and `remove_cache` change the counters after the statement.
-/

namespace XCache

variable {κ τ ε α : Type} [Columns κ]

/-- `cache_size` is the sum of the sizes of the rows. -/
def Accounted (w : World κ τ ε) : Prop := w.table.total = w.metaMem.cacheSize.toNat

namespace Algo

variable {A : Algo κ τ ε α} {w w' : World κ τ ε} {n : ℕ}

theorem roomFor_clock (size new : UInt64) : (A.roomFor w size new).clock
    = w.clock + if new > size then (A.dropped w (new - size)).length else 0 := by
  unfold roomFor
  split_ifs
  · exact Policy.shrink_clock
  · rfl

/-- If the content update is the statement that fails, the change of size is left half done. -/
theorem sizeEffect_of_fails {r : Row κ} {new : UInt64} {res : Except Error Unit}
    (hq : w.fails = [n]) (hf : A.SizeFails w r new)
    (h : A.SizeEffect w r.key (columnUInt64 r.size) new res w') :
    w' = (recount (A.roomFor w (columnUInt64 r.size) new) (columnUInt64 r.size) new).tick 1 := by
  obtain ⟨hne, hs, hfail⟩ := hf
  rw [roomFor_clock, hq, List.mem_singleton] at hfail
  cases h with
  | same heq => exact absurd heq hne
  | evictFailed D hgrow hD hD' hf =>
    have hlt : D.length < (A.dropped w (new - columnUInt64 r.size)).length :=
      lt_of_le_of_ne hD.length_le fun hlen => hD' (hD.eq_of_length hlen)
    rw [if_pos hgrow] at hfail
    rw [hq, List.mem_singleton] at hf
    omega
  | aborted hgrow hmem => exact absurd hmem (hs hgrow)
  | contentFailed => rfl
  | resized t _ _ hok _ =>
    rw [roomFor_clock, hq, List.mem_singleton] at hok
    exact absurd hfail hok

theorem not_accounted_recount {v : World κ τ ε} (hv : Sound v) {size new : UInt64}
    (hne : new ≠ size) : ¬ Accounted ((recount v size new).tick 1) := by
  intro h
  have hcs : v.metaMem.cacheSize.toNat = (v.metaMem.cacheSize - size + new).toNat :=
    hv.total.symm.trans h
  rw [UInt64.toNat_inj] at hcs
  apply hne
  have := congrArg (· - v.metaMem.cacheSize + size) hcs
  simpa [sub_eq_add_neg, add_comm, add_left_comm, add_assoc] using this.symm

theorem not_accounted {op : Op τ α} {res : Except Error (Ret τ)} (hw : Sound w)
    (hq : w.fails = [n]) (hf : A.ContentFails w op)
    (h : A.Effect w op res w') : ¬ Accounted w' := by
  have hone : ∀ {m : ℕ}, m ∈ w.fails → m = n := fun hm => by simpa [hq] using hm
  cases op with
  | put c =>
    obtain ⟨hc, r, hr, hrk, hlt, t, ht, hsf⟩ := hf
    have hmem : bindText c.key ∈ w.table.keys := Table.mem_keys.2 ⟨r, hr, hrk⟩
    have hat := hone hsf.2.2
    rw [roomFor_clock] at hat
    have hclock : (A.renewWorld (w.tick 1) t).clock = w.clock + 1 + A.cost := rfl
    cases h with
    | rejected _ e hrej => exact absurd hrej (Accepts.not_rejects_put hc)
    | failed _ m hm hfail =>
      have := hone hfail
      rw [lead] at hm
      omega
    | putEvictFailed _ D _ h0 => exact absurd hmem h0
    | putInsertFailed _ _ h0 => exact absurd hmem h0
    | putConflict _ _ h0 => exact absurd hmem h0
    | put _ t _ h0 => exact absurd hmem h0
    | putRenewConflict _ _ _ h0 =>
      rw [Option.mem_def, h0] at ht
      cases ht
    | putRenewed _ r' t' _ hr' hrk' hle _ =>
      obtain rfl := Table.eq_of_key hr' hr (hrk'.trans hrk.symm)
      exact absurd hle (UInt64.not_le.2 hlt)
    | putGrown _ r' t' _ _ _ hr' hrk' _ ht' hs =>
      obtain rfl := Table.eq_of_key hr' hr (hrk'.trans hrk.symm)
      obtain rfl := Option.some.inj (ht.symm.trans ht')
      rw [sizeEffect_of_fails (w := A.renewWorld (w.tick 1) t) hq hsf hs]
      exact not_accounted_recount (A.sound_roomFor (A.sound_renewWorld (hw.tick 1) ht) _ _) hsf.1
  | update k new =>
    obtain ⟨hc, r, hr, hrk, hsf⟩ := hf
    have hmem : bindText k ∈ w.table.keys := Table.mem_keys.2 ⟨r, hr, hrk⟩
    have hat := hone hsf.2.2
    rw [roomFor_clock] at hat
    cases h with
    | rejected _ e hrej => exact absurd hrej (Accepts.not_rejects_update hc)
    | failed _ m hm hfail =>
      have := hone hfail
      rw [lead] at hm
      rw [tick_clock] at hat
      omega
    | updateMissing _ _ _ h0 => exact absurd hmem h0
    | updated _ _ r' _ _ _ hr' hrk' hs =>
      obtain rfl := Table.eq_of_key hr' hr (hrk'.trans hrk.symm)
      rw [sizeEffect_of_fails (w := w.tick 1) hq hsf hs]
      exact not_accounted_recount (A.sound_roomFor (hw.tick 1) _ _) hsf.1
  | renew _ _ => exact hf.elim
  | resize _ => exact hf.elim
  | query _ => exact hf.elim
  | backup => exact hf.elim

/-- A call does or does not break the accounting, depending on the statement that fails in it. -/
theorem contentFails_iff {op : Op τ α} {res : Except Error (Ret τ)} (hw : Sound w)
    (hq : w.fails = [n]) (ho : A.Admits w op) (h : A.Effect w op res w') :
    Accounted w' ↔ ¬ A.ContentFails w op :=
  ⟨fun hacc hf => not_accounted hw hq hf h hacc,
    fun hf => (effect_sound hw ho.1 (NoOverflow.sums ho.2) hf h).total⟩

theorem effect_faulty {Good : Table κ → ε → Prop} (K : A.Keeps Good) {op : Op τ α}
    {res : Except Error (Ret τ)} (hI : Sound w ∧ Good w.table w.metaMem.extra)
    (ho : A.Admits w op) (hf : ¬ A.ContentFails w op) (h : A.Effect w op res w') :
    Sound w' ∧ Good w'.table w'.metaMem.extra :=
  ⟨effect_sound hI.1 ho.1 (NoOverflow.sums ho.2) hf h, K.effect hI.2 ho.2 h⟩

end Algo

/-! ## Runs -/

namespace Lru

/-- The accounting of the LRU, its sequence included. -/
structure Tallies (w : World) : Prop where
  accounted : Accounted w
  sequence : w.table.rows ≠ [] →
    (∃ r ∈ w.table.rows, seq r = w.metaMem.extra.toInt)
      ∧ ∀ r ∈ w.table.rows, seq r ≤ w.metaMem.extra.toInt

theorem tallies {w : World} (h : Sound w ∧ Good w.table w.metaMem.extra) : Tallies w :=
  ⟨h.1.total, fun hne => ⟨h.2.top hne, h.2.le⟩⟩

/-- What a call is asked, and that its content update is not the statement that fails. -/
def Spares (w : World) (op : Op) : Prop := algo.Admits w op ∧ ¬ algo.ContentFails w op

instance (w : World) (op : Op) : Decidable (Spares w op) := inferInstanceAs (Decidable (_ ∧ _))

theorem run_faulty {M : UInt64} (hM : M ≠ 0) (fails : List ℕ) (ops : List Op)
    (hops : RunOk step Spares ((start M).faulty fails) ops) :
    Sound (run step ((start M).faulty fails) ops).2
      ∧ Good (run step ((start M).faulty fails) ops).2.table
        (run step ((start M).faulty fails) ops).2.metaMem.extra := by
  refine run_invariant (I := fun w => Sound w ∧ Good w.table w.metaMem.extra)
    (fun w op hI ho => ?_) _ ops ⟨(inv_start hM).sound.faulty fails, (inv_start hM).good⟩ hops
  rw [step, call_eq]
  exact Algo.effect_faulty keeps hI ho.1 ho.2 (algo.call_effect hI.1 op)

theorem step_tallies_iff {w : World} (hI : Sound w ∧ Good w.table w.metaMem.extra) (n : ℕ)
    (op : Op) (ho : algo.Admits (w.faulty [n]) op) :
    Tallies (step (w.faulty [n]) op).2 ↔ ¬ algo.ContentFails (w.faulty [n]) op := by
  have hw := hI.1.faulty [n]
  have h := algo.call_effect hw op
  rw [step, call_eq]
  constructor
  · exact fun ht => (Algo.contentFails_iff hw rfl ho h).1 ht.accounted
  · intro hf
    exact tallies (Algo.effect_faulty keeps (w := w.faulty [n]) ⟨hw, hI.2⟩ ho hf h)

end Lru

namespace Lfuda

def Spares (w : World) (i : Resolver × Op) : Prop :=
  Admits w i ∧ ¬ (algo i.1).ContentFails w i.2

instance (w : World) (i : Resolver × Op) : Decidable (Spares w i) :=
  inferInstanceAs (Decidable (_ ∧ ¬ (algo i.1).ContentFails w i.2))

theorem run_faulty {M : UInt64} (hM : M ≠ 0) (fails : List ℕ) (ops : List (Resolver × Op))
    (hops : RunOk step Spares ((start M).faulty fails) ops) :
    Sound (run step ((start M).faulty fails) ops).2
      ∧ Good (run step ((start M).faulty fails) ops).2.table
        (run step ((start M).faulty fails) ops).2.metaMem.extra := by
  refine run_invariant (I := fun w => Sound w ∧ Good w.table w.metaMem.extra)
    (fun w i hI ho => ?_) _ ops ⟨(inv_start hM).sound.faulty fails, (inv_start hM).good⟩ hops
  rw [step, call_eq]
  exact Algo.effect_faulty (keeps i.1) hI ho.1 ho.2 ((algo i.1).call_effect hI.1 i.2)

theorem step_accounted_iff {w : World} (hw : Sound w) (n : ℕ) (i : Resolver × Op)
    (ho : Admits (w.faulty [n]) i) :
    Accounted (step (w.faulty [n]) i).2 ↔ ¬ (algo i.1).ContentFails (w.faulty [n]) i.2 := by
  rw [step, call_eq]
  exact Algo.contentFails_iff (hw.faulty [n]) rfl ho ((algo i.1).call_effect (hw.faulty [n]) i.2)

end Lfuda

/-- In both classes, the accounting survives a run in which any statements fail but content
updates; and a further call in which the `n`th statement fails breaks it exactly if that is the
call's content update. -/
theorem faults_accounting {M : UInt64} (hM : M ≠ 0) (fails : List ℕ) :
    (∀ ops : List Lru.Op, RunOk Lru.step Lru.Spares ((Lru.start M).faulty fails) ops →
      let w := (run Lru.step ((Lru.start M).faulty fails) ops).2
      Lru.Tallies w ∧ ∀ (n : ℕ) (op : Lru.Op), Lru.algo.Admits (w.faulty [n]) op →
        (Lru.Tallies (Lru.step (w.faulty [n]) op).2 ↔ ¬ Lru.algo.ContentFails (w.faulty [n]) op))
    ∧ ∀ ops : List (Lfuda.Resolver × Lfuda.Op),
      RunOk Lfuda.step Lfuda.Spares ((Lfuda.start M).faulty fails) ops →
      let w := (run Lfuda.step ((Lfuda.start M).faulty fails) ops).2
      Accounted w ∧ ∀ (n : ℕ) (i : Lfuda.Resolver × Lfuda.Op), Lfuda.Admits (w.faulty [n]) i →
        (Accounted (Lfuda.step (w.faulty [n]) i).2
          ↔ ¬ (Lfuda.algo i.1).ContentFails (w.faulty [n]) i.2) := by
  constructor
  · intro ops hops
    have hI := Lru.run_faulty hM fails ops hops
    exact ⟨Lru.tallies hI, Lru.step_tallies_iff hI⟩
  · intro ops hops
    have hI := Lfuda.run_faulty hM fails ops hops
    exact ⟨hI.1.total, Lfuda.step_accounted_iff hI.1⟩

/-- The insertion of a second file fails; the first has been evicted for it. -/
theorem faults_accounting_ten :
    (let ops : List Lru.Op := [.put ⟨[97], 5, 0, [], ⟨0⟩⟩, .put ⟨[98], 6, 0, [], ⟨0⟩⟩]
      let w := (run Lru.step ((Lru.start 10).faulty [6]) ops).2
      Lru.Tallies w ∧ ∀ (n : ℕ) (op : Lru.Op), Lru.algo.Admits (w.faulty [n]) op →
        (Lru.Tallies (Lru.step (w.faulty [n]) op).2 ↔ ¬ Lru.algo.ContentFails (w.faulty [n]) op))
    ∧ let ops : List (Lfuda.Resolver × Lfuda.Op) :=
        [(.first, .put ⟨[97], 5, 0, [], ⟨1, 0, 0⟩⟩), (.first, .put ⟨[98], 6, 0, [], ⟨2, 0, 0⟩⟩)]
      let w := (run Lfuda.step ((Lfuda.start 10).faulty [6]) ops).2
      Accounted w ∧ ∀ (n : ℕ) (i : Lfuda.Resolver × Lfuda.Op), Lfuda.Admits (w.faulty [n]) i →
        (Accounted (Lfuda.step (w.faulty [n]) i).2
          ↔ ¬ (Lfuda.algo i.1).ContentFails (w.faulty [n]) i.2) :=
  ⟨(faults_accounting (M := 10) (by decide) [6]).1 _ (by decide),
    (faults_accounting (M := 10) (by decide) [6]).2 _ (by decide)⟩

/-- A file of 5 is updated to 7 and the `UPDATE` fails: the row keeps 5, `cache_size` says 7. -/
theorem content_update_fails :
    (let w := ((run Lru.step (Lru.start 10) [.put ⟨[97], 5, 0, [], ⟨0⟩⟩]).2).faulty [5]
      let w' := (Lru.step w (.update [97] 7)).2
      Lru.algo.Admits w (.update [97] 7)
        ∧ (Lru.step w (.update [97] 7)).1 = .error (.sqlite .failed)
        ∧ w'.table.total = 5 ∧ w'.metaMem.cacheSize = 7 ∧ ¬ Lru.Tallies w')
    ∧ let i : Lfuda.Resolver × Lfuda.Op := (.first, .update [97] 7)
      let w := ((run Lfuda.step (Lfuda.start 10)
        [(.first, .put ⟨[97], 5, 0, [], ⟨1, 0, 0⟩⟩)]).2).faulty [5]
      let w' := (Lfuda.step w i).2
      Lfuda.Admits w i ∧ (Lfuda.step w i).1 = .error (.sqlite .failed)
        ∧ w'.table.total = 5 ∧ w'.metaMem.cacheSize = 7 ∧ ¬ Accounted w' :=
  ⟨⟨by decide, by decide, by decide, by decide, fun h => absurd h.accounted (by
      unfold Accounted; decide)⟩,
    by decide, by decide, by decide, by decide, by unfold Accounted; decide⟩

end XCache
