import XCache.Proofs.Growth

/-!
# Whether `update` tells the truth

`update_size` returns nothing, so `update` cannot tell that it has given up: it returns true for
every key it has found. It tells the truth unless the loop of `remove_cache` comes to the row
itself (`update_truthful_iff`), whatever the database.
-/

namespace XCache

variable {κ τ ε α : Type} [Columns κ]

/-- The answer of `update` says what has become of the row. -/
structure Truthful (w : World κ τ ε) (key : Bytes) (newSize : UInt64)
    (res : Except Error (Ret τ)) (w' : World κ τ ε) : Prop where
  success : res = .ok (.bool true) ↔
    ∃ r ∈ w'.table.rows, r.key = key ∧ r.bytes = newSize.toNat
  absent : key ∉ w.table.keys → res = .ok (.bool false)
    ∧ w'.table = w.table ∧ w'.metaMem = w.metaMem ∧ w'.metaRow = w.metaRow

namespace Policy

variable (P : Policy κ τ ε)

/-- The row of `key` is to grow, and at its new size it does not fit with the rows behind it. -/
def Outgrows (w : World κ τ ε) (key : Bytes) (newSize : UInt64) : Prop :=
  ∃ r ∈ w.table.rows, r.key = key ∧ r.bytes < newSize.toNat
    ∧ w.metaMem.maxSize.toNat < newSize.toNat + ((P.behind w.table key).map Row.bytes).sum

/-- The row of `key` is to grow, and to make room for it the loop of `remove_cache` evicts rows up
to that row and stops there or behind it. -/
def Sacrifices (w : World κ τ ε) (key : Bytes) (newSize : UInt64) : Prop :=
  ∃ r ∈ w.table.rows, r.key = key ∧ newSize > columnUInt64 r.size
    ∧ ∃ D, P.Clears (newSize - columnUInt64 r.size) w D ∧ key ∈ D.map Row.key

variable {P} {w w' : World κ τ ε} {need : UInt64} {r : Row κ} {D E : List (Row κ)}

theorem Evicts.left (h : P.Evicts need w (D ++ E)) : P.Evicts need w D := by
  induction D generalizing w with
  | nil => trivial
  | cons r D ih =>
    obtain ⟨h1, h2, h3, h4, h⟩ := h
    exact ⟨h1, h2, h3, h4, ih h⟩

theorem Clears.next (hD : P.Clears need w D) (hE : P.Evicts need w E)
    (hover : Over need (P.evict w E)) :
    (P.evict w E).clock ∉ w.fails ∧ ∃ r, P.worst (P.evict w E).table = some r
      ∧ columnUInt64 r.size ≤ (P.evict w E).metaMem.cacheSize := by
  have hdrop := hE.dropped
  rw [hD.dropped] at hdrop
  rcases hrest : P.dropped (P.evict w E) need with _ | ⟨r, F⟩
  · rw [hrest, List.append_nil] at hdrop
    exact absurd (hdrop ▸ hover) hD.2
  · rw [hrest, ← List.singleton_append, ← List.append_assoc] at hdrop
    obtain ⟨-, -, h1, h2, h3⟩ := evicts_concat.1 (hdrop ▸ hD.1).left
    exact ⟨h1, r, h2, h3⟩

theorem Clears.not_error {mark : Bytes} {e : Error} (hD : P.Clears need w D)
    (h : P.RemoveCourse w need mark (.error e) w') : False := by
  cases h with
  | failed E hE hover hfail => exact (hD.next hE hover).1 hfail
  | noVictim E hE hover hv =>
    obtain ⟨-, r, hr, -⟩ := hD.next hE hover
    rw [hv] at hr
    cases hr
  | mismatch E r hE hover hr hlt =>
    obtain ⟨-, r', hr', hle⟩ := hD.next hE hover
    rw [hr] at hr'
    cases hr'
    exact UInt64.not_lt.2 hle hlt

/-- Room for the row is made without it. -/
theorem Roomed.not_sacrifices {v : World κ τ ε} {n : UInt64} (hr : r ∈ w.table.rows)
    (hv : P.Roomed w r.key (columnUInt64 r.size) n v) : ¬ P.Sacrifices w r.key n := by
  rintro ⟨r', hr', hk, hgrow, D, hD, hmem⟩
  obtain rfl := Table.eq_of_key hr' hr hk
  rcases hv with ⟨-, E, hE, hnot, -⟩ | ⟨hle, -⟩
  · rw [← hD.dropped, hE.dropped] at hmem
    exact hnot hmem
  · exact hle hgrow

theorem Roomed.mem {v : World κ τ ε} {n : UInt64} (hr : r ∈ w.table.rows)
    (hv : P.Roomed w r.key (columnUInt64 r.size) n v) : r ∈ v.table.rows := by
  rcases hv with ⟨-, E, -, hnot, rfl⟩ | ⟨-, rfl⟩
  · rw [cleared_table, mem_evict]
    exact ⟨hr, hnot⟩
  · exact hr

/-- What `update_size` leaves of a row that is not sacrificed, and of one that is. -/
theorem SizeCourse.outcome {n : UInt64} {res : Except Error Unit} (hr : r ∈ w.table.rows)
    (hq : w.fails = []) (h : P.SizeCourse w r.key (columnUInt64 r.size) n res w') :
    (res = .ok () ↔ ∃ r' ∈ w'.table.rows, r'.key = r.key ∧ r'.bytes = n.toNat)
      ↔ ¬ P.Sacrifices w r.key n := by
  have hold : n ≠ columnUInt64 r.size → ∀ {v : World κ τ ε},
      (∀ r' ∈ v.table.rows, r' ∈ w.table.rows) →
      ¬ ∃ r' ∈ v.table.rows, r'.key = r.key ∧ r'.bytes = n.toNat := by
    rintro hne v hv ⟨r', hr', hk, hb⟩
    obtain rfl := Table.eq_of_key (hv r' hr') hr hk
    exact hne (UInt64.toNat_inj.1 hb).symm
  cases h with
  | same heq =>
    refine ⟨fun _ => ?_, fun _ => ⟨fun _ => ⟨r, hr, rfl, congrArg UInt64.toNat heq.symm⟩,
      fun _ => rfl⟩⟩
    rintro ⟨r', hr', hk, hgrow, -⟩
    obtain rfl := Table.eq_of_key hr' hr hk
    exact absurd (heq ▸ hgrow) (UInt64.lt_irrefl _)
  | removal e w' hgrow h =>
    have hne : n ≠ columnUInt64 r.size := fun heq => UInt64.lt_irrefl _ (heq ▸ hgrow)
    refine ⟨fun _ => ?_, fun _ => ⟨nofun, fun h' => absurd h' ?_⟩⟩
    · rintro ⟨r', hr', hk, -, D, hD, -⟩
      obtain rfl := Table.eq_of_key hr' hr hk
      exact hD.not_error h
    · exact hold hne (Algo.removeCourse_subset h)
  | aborted D hgrow hD hmem =>
    have hne : n ≠ columnUInt64 r.size := fun heq => UInt64.lt_irrefl _ (heq ▸ hgrow)
    refine ⟨fun h => absurd (h.1 rfl) ?_, fun h => absurd ⟨r, hr, rfl, hgrow, D, hD, hmem⟩ h⟩
    exact hold hne fun _ => cleared_subset
  | mismatch v hne hv hlt =>
    refine ⟨fun _ => hv.not_sacrifices hr, fun _ => ⟨nofun, fun h => absurd h ?_⟩⟩
    exact hold hne (Algo.roomed_subset hv)
  | contentFailed v hne hv _ hfail =>
    rw [Algo.roomed_fails hv, hq] at hfail
    cases hfail
  | resized v t hne hv _ _ ht =>
    refine ⟨fun _ => hv.not_sacrifices hr, fun _ => ⟨fun _ => ?_, fun _ => rfl⟩⟩
    exact ⟨_, (Table.mem_update ht).2 ⟨r, hv.mem hr, if_pos rfl⟩, rfl, Algo.setSize_bytes n r⟩

theorem clears_dropped (hw : Sound w) (hq : w.fails = []) (hneed : need ≤ w.metaMem.maxSize) :
    P.Clears need w (P.dropped w need) := by
  have h := removeCache_course (P := P) need [] hw.plain.keyed
  rcases removeCache_sound (P := P) [] hw hneed with ⟨hres, -⟩ | ⟨D, -, -, -, hf, -⟩
  · unfold wp at h
    rw [hres] at h
    generalize (outcome (P.removeCache need []) w).2 = v at h
    generalize hb : ((P.dropped w need).any fun v => decide (v.key = [])) = b at h
    cases h with
    | cleared D hD => exact hD.dropped ▸ hD
  · simp [hq] at hf

/-- Where the accounting is in order, a row is sacrificed to its own growth exactly if at its new
size it does not fit with the rows behind it. -/
theorem sacrifices_iff (hw : Sound w) (hq : w.fails = []) (hr : r ∈ w.table.rows) {n : UInt64}
    (hn : n ≤ w.metaMem.maxSize)
    (hsum : w.metaMem.cacheSize.toNat + (n.toNat - r.bytes) < 2 ^ 64) :
    P.Sacrifices w r.key n ↔ r.bytes < n.toNat
      ∧ w.metaMem.maxSize.toNat < n.toNat + ((P.behind w.table r.key).map Row.bytes).sum := by
  have hgrow : n > columnUInt64 r.size ↔ r.bytes < n.toNat := Row.bytes_lt
  by_cases hlt : r.bytes < n.toNat
  · have hsub := Row.growth (hgrow.2 hlt)
    have hneed : n - columnUInt64 r.size ≤ w.metaMem.maxSize := Row.growth_le (hgrow.2 hlt) hn
    have hdrop := dropped_iff (P := P) hw hr hneed (by omega)
    have hclear := clears_dropped (P := P) hw hq hneed
    constructor
    · rintro ⟨r', hr', hk, -, D, hD, hmem⟩
      obtain rfl := Table.eq_of_key hr' hr hk
      rw [← hD.dropped] at hmem
      have := hdrop.1 hmem
      exact ⟨hlt, by omega⟩
    · rintro ⟨-, hbehind⟩
      exact ⟨r, hr, rfl, hgrow.2 hlt, _, hclear, hdrop.2 (by omega)⟩
  · refine ⟨?_, fun h => absurd h.1 hlt⟩
    rintro ⟨r', hr', hk, hgt, -⟩
    obtain rfl := Table.eq_of_key hr' hr hk
    exact absurd (hgrow.1 hgt) hlt

/-- So the condition can be read off the sizes and the order of the rows. -/
theorem sacrifices_iff_outgrows (hw : Sound w) (hq : w.fails = []) {key : Bytes} {n : UInt64}
    (hn : n ≤ w.metaMem.maxSize) (hsum : ∀ r ∈ w.table.rows, r.key = key →
      w.metaMem.cacheSize.toNat + (n.toNat - r.bytes) < 2 ^ 64) :
    P.Sacrifices w key n ↔ P.Outgrows w key n := by
  constructor
  · intro h
    obtain ⟨r, hr, rfl, -⟩ := id h
    exact ⟨r, hr, rfl, (sacrifices_iff hw hq hr hn (hsum r hr rfl)).1 h⟩
  · rintro ⟨r, hr, rfl, h⟩
    exact (sacrifices_iff hw hq hr hn (hsum r hr rfl)).2 h

end Policy

namespace Algo

variable {A : Algo κ τ ε α} {w w' : World κ τ ε} {k : Bytes} {n : UInt64}
  {res : Except Error (Ret τ)}

theorem Course.truthful_iff (hq : w.fails = []) (hk : KeyExact k)
    (hc : Accepts w k n) (h : A.Course w (.update k n) res w') :
    Truthful w k n res w' ↔ ¬ A.Sacrifices (w.tick 1) k n := by
  cases h with
  | rejected _ e hrej => exact absurd hrej (Accepts.not_rejects_update hc)
  | failed _ m _ hf => simp [hq] at hf
  | updateMissing _ _ _ hmem =>
    rw [hk.bound] at hmem
    refine ⟨fun _ => ?_, fun _ => ⟨⟨nofun, ?_⟩, fun _ => ⟨rfl, rfl, rfl, rfl⟩⟩⟩
    · rintro ⟨r, hr, hrk, -⟩
      exact hmem (Table.mem_keys.2 ⟨r, hr, hrk⟩)
    · rintro ⟨r, hr, hrk, -⟩
      exact absurd (Table.mem_keys.2 ⟨r, hr, hrk⟩) hmem
  | updated _ _ r res' w' _ hr hrk hs =>
    rw [hk.bound] at hrk
    subst hrk
    rw [← hs.outcome (w := w.tick 1) hr hq]
    have hok : (res'.map fun _ => Ret.bool true) = .ok (.bool true : Ret τ) ↔ res' = .ok () := by
      rcases res' with e | u <;> simp [Except.map]
    refine ⟨fun h => hok.symm.trans h.success, fun h => ⟨hok.trans h, fun habs => ?_⟩⟩
    exact absurd (Table.mem_keys.2 ⟨r, hr, rfl⟩) habs

/-- In a run that overflows nothing, where the accounting is in order. -/
theorem sacrifices_iff (hw : Sound w) (hq : w.fails = []) (hc : Accepts w k n)
    (ho : A.Admits w (.update k n)) : A.Sacrifices (w.tick 1) k n ↔ A.Outgrows w k n := by
  refine Policy.sacrifices_iff_outgrows (w := w.tick 1) (hw.tick 1) hq hc.2.2 fun r hr hrk => ?_
  exact ho.2 hc r hr (hrk.trans ho.1.bound.symm)

end Algo

/-! ## Runs -/

theorem Lru.run_keyed {M : UInt64} (hM : M ≠ 0) (ops : List Lru.Op)
    (hops : RunOk Lru.step (fun _ op => KeyExact op.key) (Lru.start M) ops) :
    (run Lru.step (Lru.start M) ops).2.table.Keyed
      ∧ (run Lru.step (Lru.start M) ops).2.fails = [] := by
  refine run_invariant (I := fun w => w.table.Keyed ∧ w.fails = []) (fun w op hI hk => ?_)
    (Lru.start M) ops ⟨(Lru.inv_start hM).sound.plain.keyed, Lru.start_fails hM⟩ hops
  have h := Lru.step_course hI.1 op
  exact ⟨h.keyed hI.1 hk, h.fails.trans hI.2⟩

theorem Lfuda.run_keyed {M : UInt64} (hM : M ≠ 0) (ops : List (Lfuda.Resolver × Lfuda.Op))
    (hops : RunOk Lfuda.step (fun _ i => KeyExact i.2.key) (Lfuda.start M) ops) :
    (run Lfuda.step (Lfuda.start M) ops).2.table.Keyed
      ∧ (run Lfuda.step (Lfuda.start M) ops).2.fails = [] := by
  refine run_invariant (I := fun w => w.table.Keyed ∧ w.fails = []) (fun w i hI hk => ?_)
    (Lfuda.start M) ops ⟨(Lfuda.inv_start hM).sound.plain.keyed, Lfuda.start_fails hM⟩ hops
  have h := Lfuda.step_course hI.1 i
  exact ⟨h.keyed hI.1 hk, h.fails.trans hI.2⟩

/-- In both classes, whatever has been called before: an `update` that passes the checks tells the
truth exactly if it does not sacrifice its own row; and that is, where nothing has overflowed, if
the row at its new size fits with the rows behind it. -/
theorem update_truthful_iff {M : UInt64} (hM : M ≠ 0) (k : Bytes) (n : UInt64) :
    (∀ ops : List Lru.Op,
      RunOk Lru.step (fun _ op => KeyExact op.key) (Lru.start M) (ops ++ [.update k n]) →
      let w := (run Lru.step (Lru.start M) ops).2
      Algo.Accepts w k n →
      (Truthful w k n (Lru.step w (.update k n)).1 (Lru.step w (.update k n)).2
          ↔ ¬ Lru.policy.Sacrifices (w.tick 1) k n)
        ∧ (RunOk Lru.step Lru.algo.Admits (Lru.start M) (ops ++ [.update k n]) →
          (Lru.policy.Sacrifices (w.tick 1) k n ↔ Lru.policy.Outgrows w k n)))
    ∧ ∀ (ops : List (Lfuda.Resolver × Lfuda.Op)) (R : Lfuda.Resolver),
      RunOk Lfuda.step (fun _ i => KeyExact i.2.key) (Lfuda.start M) (ops ++ [(R, .update k n)]) →
      let w := (run Lfuda.step (Lfuda.start M) ops).2
      Algo.Accepts w k n →
      (Truthful w k n (Lfuda.step w (R, .update k n)).1 (Lfuda.step w (R, .update k n)).2
          ↔ ¬ (Lfuda.policy R).Sacrifices (w.tick 1) k n)
        ∧ (RunOk Lfuda.step Lfuda.Admits (Lfuda.start M) (ops ++ [(R, .update k n)]) →
          ((Lfuda.policy R).Sacrifices (w.tick 1) k n ↔ (Lfuda.policy R).Outgrows w k n)) := by
  constructor
  · intro ops hops w hc
    obtain ⟨h1, h2⟩ := runOk_append.1 hops
    obtain ⟨hw, hq⟩ := Lru.run_keyed hM ops h1
    refine ⟨(Lru.step_course hw (.update k n)).truthful_iff hq h2.1 hc, fun hadm => ?_⟩
    obtain ⟨hops', hlast⟩ := runOk_append.1 hadm
    exact Algo.sacrifices_iff (Lru.run_inv hM ops hops').1.sound hq hc hlast.1
  · intro ops R hops w hc
    obtain ⟨h1, h2⟩ := runOk_append.1 hops
    obtain ⟨hw, hq⟩ := Lfuda.run_keyed hM ops h1
    refine ⟨(Lfuda.step_course hw (R, .update k n)).truthful_iff hq h2.1 hc, fun hadm => ?_⟩
    obtain ⟨hops', hlast⟩ := runOk_append.1 hadm
    exact Algo.sacrifices_iff (Lfuda.run_inv hM ops hops').1.sound hq hc hlast.1

/-- Two files of size 4 in a cache of size 10. -/
def Lru.pair : Lru.World :=
  (run Lru.step (Lru.start 10) [.put ⟨[97], 4, 0, [], ⟨0⟩⟩, .put ⟨[98], 4, 0, [], ⟨0⟩⟩]).2

def Lfuda.pair : Lfuda.World :=
  (run Lfuda.step (Lfuda.start 10) [(.first, .put ⟨[97], 4, 0, [], ⟨1, 0, 0⟩⟩),
    (.first, .put ⟨[98], 4, 0, [], ⟨2, 0, 0⟩⟩)]).2

/-- The growth of the second file evicts the first. -/
theorem update_truthful_iff_pair :
    ((Truthful Lru.pair [98] 7 (Lru.step Lru.pair (.update [98] 7)).1
          (Lru.step Lru.pair (.update [98] 7)).2
        ↔ ¬ Lru.policy.Sacrifices (Lru.pair.tick 1) [98] 7)
      ∧ (Lru.policy.Sacrifices (Lru.pair.tick 1) [98] 7 ↔ Lru.policy.Outgrows Lru.pair [98] 7))
    ∧ (Truthful Lfuda.pair [98] 7 (Lfuda.step Lfuda.pair (.first, .update [98] 7)).1
          (Lfuda.step Lfuda.pair (.first, .update [98] 7)).2
        ↔ ¬ (Lfuda.policy .first).Sacrifices (Lfuda.pair.tick 1) [98] 7)
      ∧ ((Lfuda.policy .first).Sacrifices (Lfuda.pair.tick 1) [98] 7
        ↔ (Lfuda.policy .first).Outgrows Lfuda.pair [98] 7) := by
  have hM : (10 : UInt64) ≠ 0 := by decide
  obtain ⟨hlru, hlfuda⟩ := update_truthful_iff hM [98] 7
  obtain ⟨h1, h2⟩ := hlru [.put ⟨[97], 4, 0, [], ⟨0⟩⟩, .put ⟨[98], 4, 0, [], ⟨0⟩⟩] (by decide)
    (by decide)
  obtain ⟨h3, h4⟩ := hlfuda [(.first, .put ⟨[97], 4, 0, [], ⟨1, 0, 0⟩⟩),
    (.first, .put ⟨[98], 4, 0, [], ⟨2, 0, 0⟩⟩)] .first (by decide) (by decide)
  exact ⟨⟨h1, h2 (by decide)⟩, h3, h4 (by decide)⟩

/-- The growth of the first file evicts it, and is reported as a success. -/
theorem update_lies :
    ((Lru.step Lru.pair (.update [97] 7)).1 = .ok (.bool true)
      ∧ (Lru.step Lru.pair (.update [97] 7)).2.table.keys = [[98]]
      ∧ ¬ Truthful Lru.pair [97] 7 (Lru.step Lru.pair (.update [97] 7)).1
        (Lru.step Lru.pair (.update [97] 7)).2)
    ∧ (Lfuda.step Lfuda.pair (.first, .update [97] 7)).1 = .ok (.bool true)
      ∧ (Lfuda.step Lfuda.pair (.first, .update [97] 7)).2.table.keys = [[98]]
      ∧ ¬ Truthful Lfuda.pair [97] 7 (Lfuda.step Lfuda.pair (.first, .update [97] 7)).1
        (Lfuda.step Lfuda.pair (.first, .update [97] 7)).2 := by
  refine ⟨⟨by decide, by decide, fun h => ?_⟩, by decide, by decide, fun h => ?_⟩
  · obtain ⟨r, hr, hk, -⟩ := h.success.1 (by decide)
    revert r
    decide
  · obtain ⟨r, hr, hk, -⟩ := h.success.1 (by decide)
    revert r
    decide

end XCache
