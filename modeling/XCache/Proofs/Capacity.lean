import XCache.Proofs.Update

/-!
# How far 64 bits reach

The loop of `remove_cache` compares `cache_size + required` with `max_size` modulo `2 ^ 64`, and
each of the two may be as large as `max_size`. Below `2 ^ 63` their sum does not wrap, and the rows
fit in the cache after every call. From `2 ^ 63` on two files are enough: the sum wraps to zero,
and nothing is evicted (`capacity_iff`).
-/

namespace XCache

variable {κ τ ε α : Type} [Columns κ]

namespace Policy

variable (P : Policy κ τ ε)

/-- Whenever the loop of `remove_cache` compares, the sum is that of the two numbers. -/
def Unwrapped (v : World κ τ ε) (need : UInt64) : Prop :=
  ∀ D, P.Evicts need v D → (P.evict v D).metaMem.cacheSize.toNat + need.toNat < 2 ^ 64

variable {P} {w : World κ τ ε} {need : UInt64} {D : List (Row κ)}

theorem Evicts.cacheSize_le (h : P.Evicts need w D) :
    (P.evict w D).metaMem.cacheSize.toNat ≤ w.metaMem.cacheSize.toNat := by
  induction D generalizing w with
  | nil => exact le_rfl
  | cons r D ih =>
    obtain ⟨-, -, -, hle, h⟩ := h
    have hstep : (P.evictOne w r).metaMem.cacheSize.toNat ≤ w.metaMem.cacheSize.toNat := by
      show (w.metaMem.cacheSize - columnUInt64 r.size).toNat ≤ _
      rw [UInt64.toNat_sub_of_le _ _ hle]
      omega
    exact (ih h).trans hstep

theorem unwrapped (h : w.metaMem.cacheSize.toNat + need.toNat < 2 ^ 64) : P.Unwrapped w need := by
  intro D hD
  have := hD.cacheSize_le
  omega

theorem dropped_nil (h : w.table.rows = []) (need : UInt64) : P.dropped w need = [] := by
  rcases hr : P.worst w.table with _ | r
  · rw [dropped, order_none hr]
    rfl
  · have := P.worst_mem hr
    simp [h] at this

end Policy

namespace Algo

variable (A : Algo κ τ ε α)

/-- The call asks `remove_cache` for `need`, in the world `v`. -/
inductive Asks (w : World κ τ ε) : Op τ α → World κ τ ε → UInt64 → Prop
  | put (c : Cache τ) : Accepts w c.key c.size → bindText c.key ∉ w.table.keys →
    Asks w (.put c) (w.tick 1) c.size
  | putGrown (c : Cache τ) (r : Row κ) : Accepts w c.key c.size → r ∈ w.table.rows →
    r.key = bindText c.key → c.size > columnUInt64 r.size →
    Asks w (.put c) (outcome (A.renew r.key (A.arg c)) (w.tick 1)).2
      (c.size - columnUInt64 r.size)
  | update (k : Bytes) (n : UInt64) (r : Row κ) : Accepts w k n → r ∈ w.table.rows →
    r.key = bindText k → n > columnUInt64 r.size →
    Asks w (.update k n) (w.tick 1) (n - columnUInt64 r.size)
  | resize (n : UInt64) : n ≠ 0 →
    Asks w (.resize n) { w with metaMem := { w.metaMem with maxSize := n } } 0

/-- No sum wraps in the call, and the rows fit in the cache after it. -/
structure Contains (w : World κ τ ε) (op : Op τ α) (w' : World κ τ ε) : Prop where
  unwrapped : ∀ v need, A.Asks w op v need → A.Unwrapped v need
  fits : w'.table.total ≤ w'.metaMem.maxSize.toNat

/-- What a call is asked for its sums to be exact. -/
def Sums (w : World κ τ ε) (op : Op τ α) : Prop := KeyExact op.key ∧ SumsFit w op

instance (w : World κ τ ε) (op : Op τ α) : Decidable (Sums w op) :=
  inferInstanceAs (Decidable (_ ∧ _))

/-- What such calls keep. -/
structure Balanced (w : World κ τ ε) : Prop where
  sound : Sound w
  within : w.metaMem.cacheSize ≤ w.metaMem.maxSize
  quiet : w.fails = []

variable {A} {w w' : World κ τ ε} {op : Op τ α} {res : Except Error (Ret τ)}

theorem renew_cacheSize (hw : w.table.Plain) (key : Bytes) (a : α) :
    (outcome (A.renew key a) w).2.metaMem.cacheSize = w.metaMem.cacheSize := by
  have h : RenewEffect A.touch A.touched A.cost w key a _ _ := A.renew_effect key a hw
  rcases ho : outcome (A.renew key a) w with ⟨res, w'⟩
  rw [ho] at h
  cases h <;> rfl

theorem Effect.balanced (h : A.Effect w op res w') (hw : Balanced w) (ho : Sums w op) :
    Balanced w' where
  sound := effect_sound hw.sound ho.1 ho.2 (not_contentFails hw.quiet) h
  within := effect_within hw.sound ho.2 hw.within hw.quiet h
  quiet := (effect_fails h).trans hw.quiet

theorem Balanced.fits (hw : Balanced w) : w.table.total ≤ w.metaMem.maxSize.toNat := by
  rw [hw.sound.total]
  exact UInt64.le_iff_toNat_le.1 hw.within

theorem Effect.contains (h : A.Effect w op res w') (hw : Balanced w) (ho : Sums w op) :
    A.Contains w op w' := by
  refine ⟨fun v need hask => ?_, (h.balanced hw ho).fits⟩
  cases hask with
  | put c hc hk => exact Policy.unwrapped ((ho.2 hc).1 hk)
  | putGrown c r hc hr hk hgrow =>
    refine Policy.unwrapped ?_
    rw [renew_cacheSize (w := w.tick 1) hw.sound.plain, Row.growth hgrow]
    exact (ho.2 hc).2 r hr hk
  | update k n r hc hr hk hgrow =>
    refine Policy.unwrapped ?_
    rw [Row.growth hgrow]
    exact ho.2 hc r hr hk
  | resize n =>
    refine Policy.unwrapped ?_
    have := w.metaMem.cacheSize.toNat_lt
    rw [UInt64.toNat_zero]
    omega

theorem sumsFit_of_small (hw : Balanced w) (hlt : w.metaMem.maxSize.toNat < 2 ^ 63) :
    SumsFit w op := by
  have hcs := UInt64.le_iff_toNat_le.1 hw.within
  cases op with
  | put c =>
    intro hc
    have := UInt64.le_iff_toNat_le.1 hc.2.2
    exact ⟨fun _ => by omega, fun r _ _ => by omega⟩
  | update k n =>
    intro hc r _ _
    have := UInt64.le_iff_toNat_le.1 hc.2.2
    omega
  | _ => trivial

theorem SizeEffect.maxSize {key : Bytes} {size n : UInt64} {res : Except Error Unit}
    (h : A.SizeEffect w key size n res w') : w'.metaMem.maxSize = w.metaMem.maxSize := by
  cases h with
  | same => rfl
  | evictFailed D => exact Policy.evict_maxSize w D
  | aborted => exact Policy.shrink_maxSize
  | contentFailed => exact roomFor_maxSize size n
  | resized => exact roomFor_maxSize size n

theorem Effect.maxSize (h : A.Effect w op res w') :
    w'.metaMem.maxSize = w.metaMem.maxSize ∨ op = .resize w'.metaMem.maxSize := by
  cases h with
  | putEvictFailed c D => exact .inl (Policy.evict_maxSize (w.tick 1) D)
  | putInsertFailed c => exact .inl (Policy.shrink_maxSize (w := w.tick 1))
  | putConflict c => exact .inl (Policy.shrink_maxSize (w := w.tick 1))
  | put c t => exact .inl (Policy.shrink_maxSize (w := w.tick 1))
  | putGrown c r t res' w' _ _ _ _ _ hs =>
    exact .inl (SizeEffect.maxSize (w := A.renewWorld (w.tick 1) t) hs)
  | updated k n r res' w' _ _ _ hs => exact .inl (SizeEffect.maxSize (w := w.tick 1) hs)
  | resizeFailed n D w₁ _ hw₁ =>
    have hmax : w₁.metaMem.maxSize = n := by rw [hw₁]
    exact .inr (congrArg Op.resize ((Policy.evict_maxSize w₁ D).trans hmax).symm)
  | resize n w₁ _ hw₁ =>
    have hmax : w₁.metaMem.maxSize = n := by rw [hw₁]
    exact .inr (congrArg Op.resize (Policy.shrink_maxSize.trans hmax).symm)
  | _ => exact .inl rfl

theorem shrink_nil (h0 : w.table.rows = []) (need : UInt64) : A.shrink w need = w := by
  rw [Policy.shrink, Policy.dropped_nil h0]
  rfl

theorem admits_first {c : Cache τ} (h0 : w.table.rows = []) (hk : KeyExact c.key)
    (hsum : w.metaMem.cacheSize.toNat + c.size.toNat < 2 ^ 64)
    (hx : A.insertCount w.metaMem.extra < 2 ^ 63) : A.Admits w (.put c) := by
  refine ⟨hk, fun _ => ⟨fun _ => ⟨hsum, ?_⟩, fun r hr => ?_⟩⟩
  · rw [shrink_nil (w := w.tick 1) h0]
    exact hx
  · simp [h0] at hr

theorem put_first {Good : Table κ → ε → Prop} (K : A.Keeps Good) {c : Cache τ} (hI : Inv Good w)
    (hq : w.fails = []) (h0 : w.table.rows = []) (hc : Accepts w c.key c.size)
    (ho : A.Admits w (.put c)) (h : A.Effect w (.put c) res w') :
    w'.table.keys = [c.key] ∧ w'.metaMem.cacheSize = c.size
      ∧ w'.metaMem.maxSize = w.metaMem.maxSize := by
  have hb : bindText c.key = c.key := ho.1.bound
  have hres := effect_not_sqlite K hI.good ho.2 hq h
  cases h with
  | rejected _ e hrej => exact absurd hrej (Accepts.not_rejects_put hc)
  | failed | putEvictFailed | putInsertFailed | putConflict | putRenewConflict =>
    exact absurd rfl (hres _)
  | putRenewed _ r _ _ hr => simp [h0] at hr
  | putGrown _ r _ _ _ _ hr => simp [h0] at hr
  | put _ t _ _ ht =>
    rw [shrink_nil (w := w.tick 1) h0] at ht ⊢
    refine ⟨?_, ?_, rfl⟩
    · show t.rows.map Row.key = _
      rw [Table.insert_rows ht]
      simp [h0, A.newRow_key, hb]
    · show w.metaMem.cacheSize + c.size = c.size
      rw [hI.sound.cacheSize_nil h0, UInt64.zero_add]

/-- A file of `2 ^ 63` bytes is put in an empty cache: for the room of a second one the sum
wraps. -/
theorem second_not_contained {Good : Table κ → ε → Prop} (K : A.Keeps Good) (c c' : Cache τ)
    (w' : World κ τ ε) (hI : Inv Good w) (hq : w.fails = []) (h0 : w.table.rows = [])
    (hmax : 2 ^ 63 ≤ w.metaMem.maxSize.toNat) (hx : A.insertCount w.metaMem.extra < 2 ^ 63)
    (hc : c.key ≠ [] ∧ KeyExact c.key ∧ c.size.toNat = 2 ^ 63)
    (hc' : c'.key ≠ [] ∧ KeyExact c'.key ∧ c'.size.toNat = 2 ^ 63) (hne : c'.key ≠ c.key) :
    ¬ A.Contains (outcome (A.call (.put c)) w).2 (.put c') w' := by
  have hcs := hI.sound.cacheSize_nil h0
  have haccepts : ∀ {v : World κ τ ε} {c : Cache τ}, v.metaMem.maxSize = w.metaMem.maxSize →
      c.key ≠ [] → c.size.toNat = 2 ^ 63 → Accepts v c.key c.size := by
    intro v c hv hk hs
    refine ⟨hk, fun hz => ?_, ?_⟩
    · rw [hz] at hs
      simp at hs
    · rw [hv, UInt64.le_iff_toNat_le]
      omega
  obtain ⟨hkeys, hsize, hlimit⟩ := put_first K hI hq h0 (haccepts rfl hc.1 hc.2.2)
    (admits_first h0 hc.2.1 (by rw [hcs, UInt64.toNat_zero]; omega) hx)
    (A.call_effect hI.sound (.put c))
  intro h
  have hlt := h.unwrapped _ _
    (.put c' (haccepts hlimit hc'.1 hc'.2.2) (by rw [hkeys, hc'.2.1.bound]; simpa using hne))
    [] trivial
  rw [Policy.evict_nil, tick_metaMem, hsize] at hlt
  omega

end Algo

/-! ## Runs -/

theorem Lru.start_balanced {M : UInt64} (hM : M ≠ 0) : Algo.Balanced (Lru.start M) :=
  ⟨(Lru.inv_start hM).sound, (Lru.inv_start hM).within, Lru.start_fails hM⟩

theorem Lfuda.start_balanced {M : UInt64} (hM : M ≠ 0) : Algo.Balanced (Lfuda.start M) :=
  ⟨(Lfuda.inv_start hM).sound, (Lfuda.inv_start hM).within, Lfuda.start_fails hM⟩

theorem Lru.run_balanced {M : UInt64} (hM : M ≠ 0) (ops : List Lru.Op)
    (hops : RunOk Lru.step Algo.Sums (Lru.start M) ops) :
    Algo.Balanced (run Lru.step (Lru.start M) ops).2 := by
  refine run_invariant (fun w op hw ho => ?_) (Lru.start M) ops (Lru.start_balanced hM) hops
  rw [Lru.step, Lru.call_eq]
  exact (Lru.algo.call_effect hw.sound op).balanced hw ho

theorem Lfuda.run_balanced {M : UInt64} (hM : M ≠ 0) (ops : List (Lfuda.Resolver × Lfuda.Op))
    (hops : RunOk Lfuda.step (fun w i => Algo.Sums w i.2) (Lfuda.start M) ops) :
    Algo.Balanced (run Lfuda.step (Lfuda.start M) ops).2 := by
  refine run_invariant (fun w i hw hi => ?_) (Lfuda.start M) ops (Lfuda.start_balanced hM) hops
  rw [Lfuda.step, Lfuda.call_eq]
  exact ((Lfuda.algo i.1).call_effect hw.sound i.2).balanced hw hi

/-- Calls that keep the limit at `B` or below. -/
def Op.Within (B : UInt64) (op : Op τ α) : Prop :=
  KeyExact op.key ∧ ∀ n, op = .resize n → n ≤ B

/-- In every run that keeps `max_size` at `B` or below, every call keeps the rows in the cache. -/
def Lru.Capacity (B : UInt64) : Prop :=
  ∀ (M : UInt64) (ops : List Lru.Op) (op : Lru.Op), M ≠ 0 → M ≤ B →
    (∀ o ∈ ops ++ [op], o.Within B) →
    let w := (run Lru.step (Lru.start M) ops).2
    Lru.algo.Contains w op (Lru.step w op).2

def Lfuda.Capacity (B : UInt64) : Prop :=
  ∀ (M : UInt64) (ops : List (Lfuda.Resolver × Lfuda.Op)) (i : Lfuda.Resolver × Lfuda.Op),
    M ≠ 0 → M ≤ B → (∀ j ∈ ops ++ [i], j.2.Within B) →
    let w := (run Lfuda.step (Lfuda.start M) ops).2
    (Lfuda.algo i.1).Contains w i.2 (Lfuda.step w i).2

section Run

variable {B M : UInt64}

theorem Algo.Effect.small {A : Algo κ τ ε α} {w w' : World κ τ ε} {op : Op τ α}
    {res : Except Error (Ret τ)} (h : A.Effect w op res w') (hB : B.toNat < 2 ^ 63)
    (hw : Algo.Balanced w ∧ w.metaMem.maxSize ≤ B) (hop : op.Within B) :
    (Algo.Balanced w' ∧ w'.metaMem.maxSize ≤ B) ∧ A.Contains w op w' := by
  have hlt : w.metaMem.maxSize.toNat < 2 ^ 63 :=
    lt_of_le_of_lt (UInt64.le_iff_toNat_le.1 hw.2) hB
  have ho : Algo.Sums w op := ⟨hop.1, Algo.sumsFit_of_small hw.1 hlt⟩
  refine ⟨⟨h.balanced hw.1 ho, ?_⟩, h.contains hw.1 ho⟩
  rcases h.maxSize with h | h
  · exact h ▸ hw.2
  · exact hop.2 _ h

theorem Lru.capacity_of_small (hB : B.toNat < 2 ^ 63) : Lru.Capacity B := by
  intro M ops op hM hMB hops w
  have hstep : ∀ (w : Lru.World) (o : Lru.Op),
      Algo.Balanced w ∧ w.metaMem.maxSize ≤ B → o.Within B →
      (Algo.Balanced (Lru.step w o).2 ∧ (Lru.step w o).2.metaMem.maxSize ≤ B)
        ∧ Lru.algo.Contains w o (Lru.step w o).2 := by
    intro w o hw ho
    rw [Lru.step, Lru.call_eq]
    exact (Lru.algo.call_effect hw.1.sound o).small hB hw ho
  have hstart : Algo.Balanced (Lru.start M) ∧ (Lru.start M).metaMem.maxSize ≤ B :=
    ⟨Lru.start_balanced hM, by rw [Lru.start_metaMem hM]; exact hMB⟩
  have hw := run_invariant (fun w o hw ho => (hstep w o hw ho).1) (Lru.start M) ops hstart
    (RunOk.of_inputs _ _ fun o ho => hops o (List.mem_append_left _ ho))
  exact (hstep w op hw (hops op (by simp))).2

theorem Lfuda.capacity_of_small (hB : B.toNat < 2 ^ 63) : Lfuda.Capacity B := by
  intro M ops i hM hMB hops w
  have hstep : ∀ (w : Lfuda.World) (j : Lfuda.Resolver × Lfuda.Op),
      Algo.Balanced w ∧ w.metaMem.maxSize ≤ B → j.2.Within B →
      (Algo.Balanced (Lfuda.step w j).2 ∧ (Lfuda.step w j).2.metaMem.maxSize ≤ B)
        ∧ (Lfuda.algo j.1).Contains w j.2 (Lfuda.step w j).2 := by
    intro w j hw hj
    rw [Lfuda.step, Lfuda.call_eq]
    exact ((Lfuda.algo j.1).call_effect hw.1.sound j.2).small hB hw hj
  have hstart : Algo.Balanced (Lfuda.start M) ∧ (Lfuda.start M).metaMem.maxSize ≤ B :=
    ⟨Lfuda.start_balanced hM, by rw [Lfuda.start_metaMem hM]; exact hMB⟩
  have hw := run_invariant (fun w j hw hj => (hstep w j hw hj).1) (Lfuda.start M) ops hstart
    (RunOk.of_inputs _ _ fun j hj => hops j (List.mem_append_left _ hj))
  exact (hstep w i hw (hops i (by simp))).2

theorem Lru.not_capacity (hB : 2 ^ 63 ≤ B.toNat) : ¬ Lru.Capacity B := by
  intro h
  have hB0 : B ≠ 0 := by
    rintro rfl
    simp at hB
  have hm := Lru.start_metaMem hB0
  have hx : (Lru.start B).metaMem.extra = 0 := by rw [hm]
  let c : Lru.Cache := ⟨[97], 9223372036854775808, 0, [], ⟨0⟩⟩
  let c' : Lru.Cache := ⟨[98], 9223372036854775808, 0, [], ⟨0⟩⟩
  have hops : ∀ o ∈ [Op.put c] ++ [Op.put c'], (o : Lru.Op).Within B := by
    intro o ho
    simp only [List.singleton_append, List.mem_cons, List.not_mem_nil, or_false] at ho
    rcases ho with rfl | rfl <;> exact ⟨by decide, nofun⟩
  have hnot := Algo.second_not_contained Lru.keeps c c'
    (Lru.step (run Lru.step (Lru.start B) [.put c]).2 (.put c')).2 (Lru.inv_start hB0)
    (Lru.start_fails hB0) (by rw [Lru.start_table hB0]; rfl) (by rw [hm]; exact hB)
    (by rw [hx]; decide) (by decide) (by decide) (by decide)
  rw [← Lru.call_eq] at hnot
  exact hnot (h B [.put c] (.put c') hB0 (UInt64.le_refl _) hops)

theorem Lfuda.not_capacity (hB : 2 ^ 63 ≤ B.toNat) : ¬ Lfuda.Capacity B := by
  intro h
  have hB0 : B ≠ 0 := by
    rintro rfl
    simp at hB
  have hm := Lfuda.start_metaMem hB0
  have hx : (Lfuda.start B).metaMem.extra = 0 := by rw [hm]
  let c : Lfuda.Cache := ⟨[97], 9223372036854775808, 0, [], ⟨0, 0, 0⟩⟩
  let c' : Lfuda.Cache := ⟨[98], 9223372036854775808, 0, [], ⟨0, 0, 0⟩⟩
  have hops : ∀ j ∈ [(Lfuda.Resolver.first, Op.put c)] ++ [(.first, Op.put c')],
      (j.2 : Lfuda.Op).Within B := by
    intro j hj
    simp only [List.singleton_append, List.mem_cons, List.not_mem_nil, or_false] at hj
    rcases hj with rfl | rfl <;> exact ⟨by decide, nofun⟩
  have hnot := Algo.second_not_contained (Lfuda.keeps .first) c c'
    (Lfuda.step (run Lfuda.step (Lfuda.start B) [(.first, .put c)]).2 (.first, .put c')).2
    (Lfuda.inv_start hB0) (Lfuda.start_fails hB0) (by rw [Lfuda.start_table hB0]; rfl)
    (by rw [hm]; exact hB) (by rw [hx]; decide) (by decide) (by decide) (by decide)
  rw [← Lfuda.call_eq] at hnot
  exact hnot (h B [(.first, .put c)] (.first, .put c') hB0 (UInt64.le_refl _) hops)

end Run

/-- In both classes: runs that keep `max_size` at `B` or below keep the rows in the cache exactly if
`B` is below `2 ^ 63`. -/
theorem capacity_iff (B : UInt64) :
    (Lru.Capacity B ↔ B.toNat < 2 ^ 63) ∧ (Lfuda.Capacity B ↔ B.toNat < 2 ^ 63) :=
  ⟨⟨fun h => not_le.1 fun hB => Lru.not_capacity hB h, Lru.capacity_of_small⟩,
    ⟨fun h => not_le.1 fun hB => Lfuda.not_capacity hB h, Lfuda.capacity_of_small⟩⟩

/-- Two files of `2 ^ 63` bytes in a cache of `2 ^ 63` bytes. -/
theorem capacity_exceeded :
    (let w := (run Lru.step (Lru.start 9223372036854775808)
        [.put ⟨[97], 9223372036854775808, 0, [], ⟨0⟩⟩]).2
      let op : Lru.Op := .put ⟨[98], 9223372036854775808, 0, [], ⟨0⟩⟩
      (Lru.step w op).1 = .ok (.bool true) ∧ (Lru.step w op).2.table.total = 2 ^ 64
        ∧ (Lru.step w op).2.metaMem.cacheSize = 0 ∧ ¬ Lru.algo.Contains w op (Lru.step w op).2)
    ∧ let w := (run Lfuda.step (Lfuda.start 9223372036854775808)
        [(.first, .put ⟨[97], 9223372036854775808, 0, [], ⟨1, 0, 0⟩⟩)]).2
      let i : Lfuda.Resolver × Lfuda.Op :=
        (.first, .put ⟨[98], 9223372036854775808, 0, [], ⟨2, 0, 0⟩⟩)
      (Lfuda.step w i).1 = .ok (.bool true) ∧ (Lfuda.step w i).2.table.total = 2 ^ 64
        ∧ (Lfuda.step w i).2.metaMem.cacheSize = 0
        ∧ ¬ (Lfuda.algo i.1).Contains w i.2 (Lfuda.step w i).2 := by
  refine ⟨⟨by decide, by decide, by decide, fun h => ?_⟩, by decide, by decide, by decide,
    fun h => ?_⟩
  · exact absurd h.fits (by decide)
  · exact absurd h.fits (by decide)

end XCache
