import XCache.Proofs.Asserting
import XCache.Proofs.Update

/-!
# Inconsistent databases

Sizes, sequences, `freq`, `eff` and the meta record may contradict each other. Where `init` of the
LRU returns, no sequence is greater than the one it has loaded, and every call keeps that, also one
that throws: so the next sequence is always new. The LFUDA needs nothing of the kind. The assertions
of both hold in every run (`runs_uphold`).
-/

namespace XCache

namespace Lru

/-- No sequence is greater than the third meta field. -/
def Le (t : Table) (x : Int64) : Prop := ∀ r ∈ t.rows, seq r ≤ x.toInt

/-- The next sequence does not overflow. -/
def Succ (x : Int64) : Prop := x.toInt + 1 < 2 ^ 63

instance : DecidablePred Succ := fun _ => inferInstanceAs (Decidable (_ < _))

variable {w w' : World}

theorem fresh_of_le (hI : Le w.table w.metaMem.extra) (hx : Succ w.metaMem.extra) : Fresh w := by
  intro r hr
  have := hI r hr
  rw [toInt_succ hx]
  omega

theorem le_update {t t' : Table} {x : Int64} {key : Bytes} (hI : Le t x) (hx : Succ x)
    (ht : t.update key (fun r => { r with cols := ⟨x + 1⟩ }) = some t') : Le t' (x + 1) := by
  intro r hr
  obtain ⟨r₀, hr₀, rfl⟩ := (Table.mem_update ht).1 hr
  have hle := hI r₀ hr₀
  have hs := toInt_succ hx
  split_ifs
  · exact le_rfl
  · omega

theorem renew_upholds (key : Bytes) (hI : Le w.table w.metaMem.extra)
    (hx : key ≠ [] → Succ w.metaMem.extra) :
    Upholds .unfinished (renewAsserting key) (renew key) (Has Le) w := by
  unfold renew renewAsserting
  refine .throwIf (fun _ => ⟨nofun, hI⟩) fun hk => .get (.assert (fresh_of_le hI (hx hk)) ?_)
  refine .bind (Q := fun res v => match res with
    | .ok n => if n = 0 then Le v.table v.metaMem.extra else Le v.table (v.metaMem.extra + 1)
    | .error _ => Le v.table v.metaMem.extra) (.of_wp ?_) (fun _ _ h => h) fun n v hv => ?_
  rotate_left
  · simp only [] at hv
    refine .ite (fun h0 => ?_) fun h0 => .pure ?_
    · rw [if_neg h0] at hv
      exact .pure hv
    · rw [if_pos (not_not.1 h0)] at hv
      exact hv
  · refine wp_writeTable.2 ⟨fun _ => ⟨nofun, hI⟩, fun _ => ⟨fun t ht => ⟨nofun, ?_⟩,
      fun _ => ⟨nofun, hI⟩⟩⟩
    simp only []
    split_ifs with h0
    · rw [Table.update_of_not_mem (Table.count_eq_zero.1 h0)] at ht
      cases ht
      exact hI
    · exact le_update hI (hx hk) ht

theorem tolerant : Algo.Tolerant algo asserts Le Succ where
  keeps :=
    { rows := by
        intro t t' x hI hcols r hr
        obtain ⟨r₀, hr₀, hc⟩ := hcols r hr
        show r.cols.sequence.toInt ≤ _
        rw [hc]
        exact hI r₀ hr₀
      evicted := id }
  fresh := fresh_of_le
  insert := by
    intro t t' x c hI hx ht r hr
    have hs := toInt_succ hx
    rw [Table.insert_rows ht, List.mem_append, List.mem_singleton] at hr
    show seq r ≤ (x + 1).toInt
    rcases hr with hr | rfl
    · have := hI r hr
      omega
    · exact le_rfl
  renew key _ := renew_upholds key

/-- `init` compares the loaded sequence with that of the newest row. -/
theorem le_of_newest {t : Table} {x : Int64} (ht : t.Keyed)
    (h : (policy.getSingle (new t)).key ≠ [] → (policy.getSingle (new t)).fields.sequence = x) :
    Le t x := by
  rcases hn : new t with _ | r
  · intro r hr
    simp [new_none hn] at hr
  · have hmem : r ∈ t.rows := least_mem hn
    have hseq : r.cols.sequence = x := by
      rw [hn] at h
      refine h ?_
      show (policy.getRow r).key ≠ []
      rw [ht.getRow_key hmem]
      exact ht.nonempty r hmem
    intro r' hr'
    have hle := new_le hn r' hr'
    show _ ≤ x.toInt
    rw [← hseq]
    exact hle

theorem init_upholds (hw : w.table.Keyed) : Upholds .unfinished initAsserting init
    (fun res v => res = .ok () → Le v.table v.metaMem.extra) w := by
  unfold init initAsserting
  refine .bind (Q := fun _ v => v.table = w.table) (.of_wp ?_) (fun _ _ _ => nofun) fun m v hv => ?_
  · exact Policy.wp_queryMeta.2 ⟨fun _ => ⟨nofun, rfl⟩, fun _ => ⟨nofun, rfl⟩⟩
  refine .modify (.throwIf (fun _ => ⟨nofun, nofun⟩) fun _ => ?_)
  refine .bind (Q := fun res v' => v'.table = w.table ∧ v'.metaMem = m
    ∧ ∀ entry, res = .ok entry → entry = policy.getSingle (new w.table)) (.of_wp ?_)
    (fun _ _ _ => nofun) fun entry v' h => ?_
  · refine wp_readWorld.2 ⟨fun _ => ⟨nofun, hv, rfl, nofun⟩, fun _ => ⟨nofun, hv, rfl, ?_⟩⟩
    rintro entry ⟨⟩
    exact congrArg (fun t => policy.getSingle (new t)) hv
  obtain ⟨ht, hm, hentry⟩ := h
  obtain rfl := hentry entry rfl
  refine .throwIf (fun _ => ⟨nofun, nofun⟩) fun _ => ?_
  refine .throwIf (fun _ => ⟨nofun, nofun⟩) fun hseq => ?_
  have hI : Le v'.table v'.metaMem.extra := by
    rw [ht, hm]
    exact le_of_newest hw fun hk => by_contra fun hne => hseq ⟨hk, hne⟩
  refine .throwIf (fun _ => ⟨nofun, nofun⟩) fun _ => .ite (fun _ => ?_) fun _ =>
    .pure fun _ => hI
  exact .bind (Policy.removeCache_upholds tolerant.keeps 0 [] hI) (fun _ _ _ => nofun)
    fun _ v'' hv'' => .pure fun _ => hv''

/-! ## No conflict -/

theorem step_upholds {w : World} (op : Op) (hI : Le w.table w.metaMem.extra)
    (hc : algo.Counts Succ w op) : (stepAsserting w op = step w op)
      ∧ (step w op).1 ≠ .error .unfinished
      ∧ Le (step w op).2.table (step w op).2.metaMem.extra := by
  rw [step, call_eq]
  exact Algo.call_upholds tolerant op hI hc

theorem removeCourse_ne_constraint {need : UInt64} {mark : Bytes} {res : Except Error Bool}
    (h : policy.RemoveCourse w need mark res w') :
    res ≠ .error (.sqlite .constraint) ∧ w'.metaMem.extra = w.metaMem.extra := by
  cases h with
  | cleared D => exact ⟨nofun, by rw [Policy.cleared_metaMem, evict_extra]⟩
  | failed D => exact ⟨nofun, evict_extra w D⟩
  | noVictim D => exact ⟨nofun, by rw [deliver_metaMem, tick_metaMem, evict_extra]⟩
  | mismatch D => exact ⟨nofun, evict_extra w D⟩

theorem sizeCourse_ne_constraint {key : Bytes} {size n : UInt64} {res : Except Error Unit}
    (h : policy.SizeCourse w key size n res w') : res ≠ .error (.sqlite .constraint) := by
  cases h with
  | removal e w' _ h =>
    exact fun he => (removeCourse_ne_constraint h).1 (congrArg _ (Except.error.inj he))
  | _ => nofun

theorem succ_of_clears {c : Cache} {D : List Row} (hw : w.table.Keyed)
    (hc : algo.Counts Succ w (.put c)) (hacc : Algo.Accepts w c.key c.size)
    (hmem : bindText c.key ∉ w.table.keys) (hD : policy.Clears c.size (w.tick 1) D) :
    Succ w.metaMem.extra := by
  have hcourse := Policy.removeCache_course (P := policy) (w := w.tick 1) c.size [] hw
  unfold wp at hcourse
  have hcount := (hc hacc).2 (by rw [Table.find_none.2 hmem]; rfl)
  rcases ho : outcome (policy.removeCache c.size []) (w.tick 1) with ⟨e | b, v⟩
  · rw [ho] at hcourse
    exact absurd hcourse fun h => hD.not_error h
  · rw [show outcome (algo.removeCache c.size []) (w.tick 1) = _ from ho] at hcount
    rw [ho] at hcourse
    have hx := hcount rfl
    rw [(removeCourse_ne_constraint hcourse).2] at hx
    exact hx

theorem course_ne_constraint {op : Op} {res : Except Error Ret} (hw : w.table.Keyed)
    (hI : Le w.table w.metaMem.extra) (hc : algo.Counts Succ w op)
    (h : algo.Course w op res w') : res ≠ .error (.sqlite .constraint) := by
  have hmap : ∀ {β : Type} {x : Except Error β} {f : β → Ret},
      x ≠ .error (.sqlite .constraint) → x.map f ≠ .error (.sqlite .constraint) := by
    rintro β (e | b) f hx
    · exact fun he => hx (congrArg _ (Except.error.inj he))
    · nofun
  cases h with
  | putRemoval c e w' _ _ h =>
    exact fun he => (removeCourse_ne_constraint h).1 (congrArg _ (Except.error.inj he))
  | putConflict c D hacc hmem hD hins =>
    have hx := succ_of_clears hw hc hacc hmem hD
    have hextra : (policy.cleared (w.tick 1) D).metaMem.extra = w.metaMem.extra := by
      rw [Policy.cleared_metaMem, evict_extra, tick_metaMem]
    have hsub : ∀ r ∈ (policy.cleared (w.tick 1) D).table.rows, r ∈ w.table.rows :=
      fun r => Policy.cleared_subset (w := w.tick 1)
    have hnew : bindText c.key ∉ (policy.cleared (w.tick 1) D).table.keys := by
      intro h
      obtain ⟨r, hr, hk⟩ := Table.mem_keys.1 h
      exact hmem (Table.mem_keys.2 ⟨r, hsub r hr, hk⟩)
    obtain ⟨t, ht⟩ := insert_isSome (fun r hr => hI r (hsub r hr)) hx hnew
    rw [← hextra] at ht
    exact absurd (hins.symm.trans ht) nofun
  | putRenewConflict c hacc hmem hupd =>
    obtain ⟨r, hr, hk⟩ := Table.mem_keys.1 hmem
    have hne : (policy.getSingle (w.table.find (bindText c.key))).key ≠ [] := by
      rw [Table.find_some.2 ⟨hr, hk⟩]
      show (policy.getRow r).key ≠ []
      rw [hw.getRow_key hr]
      exact hw.nonempty r hr
    obtain ⟨t, ht⟩ := renew_isSome hI ((hc hacc).1 hne) (bindText c.key)
    rw [show w.table.update _ _ = _ from hupd] at ht
    cases ht
  | renewConflict k a hk _ hupd =>
    obtain ⟨t, ht⟩ := renew_isSome hI (hc hk) (bindText k)
    rw [show w.table.update _ _ = _ from hupd] at ht
    cases ht
  | putGrown c r t res' w' _ _ _ _ _ hs => exact hmap (sizeCourse_ne_constraint hs)
  | updated k n r res' w' _ _ _ hs => exact hmap (sizeCourse_ne_constraint hs)
  | resize n w₁ res' w' _ _ h => exact hmap (removeCourse_ne_constraint h).1
  | _ => nofun

end Lru

namespace Lfuda

variable {w : World}

theorem renew_upholds (key : Bytes) (ts : UInt64) :
    Upholds .unfinished (renew key ts) (renew key ts) (Has fun _ _ => True) w := by
  unfold renew
  refine .throwIf (fun _ => ⟨by simp, trivial⟩) fun _ => .bind (Q := fun _ _ => True) (.of_wp ?_)
    (fun _ _ h => h) fun tfe v _ => ?_
  · exact wp_readWorld.2 ⟨fun _ => ⟨by simp, trivial⟩, fun _ => ⟨by simp, trivial⟩⟩
  refine .ite (fun _ => .get ?_) fun _ => .pure trivial
  refine .bind (Q := fun _ _ => True) (.of_wp ?_) (fun _ _ h => h) fun changed v' _ => ?_
  · exact wp_writeTable.2 ⟨fun _ => ⟨by simp, trivial⟩, fun _ => ⟨fun t _ => ⟨by simp, trivial⟩,
      fun _ => ⟨by simp, trivial⟩⟩⟩
  · exact .throwIf (fun _ => ⟨by simp, trivial⟩) fun _ => .pure trivial

theorem tolerant (R : Resolver) :
    (algo R).Tolerant asserts (fun _ _ => True) fun _ => True where
  keeps := ⟨fun _ _ => trivial, fun _ => trivial⟩
  fresh _ _ := trivial
  insert _ _ _ := trivial
  renew key ts _ _ := renew_upholds key ts

theorem counts_true (R : Resolver) (w : World) (op : Op) :
    (algo R).Counts (fun _ => True) w op := by
  cases op <;> simp [Algo.Counts]

theorem init_upholds (R : Resolver) :
    Upholds .unfinished (initAsserting R) (init R) (fun _ _ => True) w := by
  unfold init initAsserting
  refine .bind (Q := fun _ _ => True) (.of_wp ?_) (fun _ _ _ => trivial) fun m v _ => ?_
  · exact Policy.wp_queryMeta.2 ⟨fun _ => ⟨nofun, trivial⟩, fun _ => ⟨nofun, trivial⟩⟩
  refine .modify (.throwIf (fun _ => ⟨nofun, trivial⟩) fun _ => ?_)
  refine .bind (Q := fun _ _ => True) (.of_wp ?_) (fun _ _ _ => trivial) fun entry v' _ => ?_
  · exact wp_readWorld.2 ⟨fun _ => ⟨nofun, trivial⟩, fun _ => ⟨nofun, trivial⟩⟩
  refine .throwIf (fun _ => ⟨nofun, trivial⟩) fun _ =>
    .throwIf (fun _ => ⟨nofun, trivial⟩) fun _ => ?_
  refine .ite (fun _ => ?_) fun _ => .pure trivial
  exact .bind (Policy.removeCache_upholds (tolerant R).keeps 0 [] trivial) (fun _ _ _ => trivial)
    fun _ _ _ => .pure trivial

theorem step_upholds (w : World) (i : Resolver × Op) :
    stepAsserting w i = step w i ∧ (step w i).1 ≠ .error .unfinished := by
  rw [step, call_eq]
  obtain ⟨h1, h2, -⟩ :=
    Algo.call_upholds (tolerant i.1) (w := w) i.2 trivial (counts_true i.1 w i.2)
  exact ⟨h1, h2⟩

end Lfuda

/-! ## Runs -/

theorem Policy.InitEffect.keyed {κ τ ε : Type} [Columns κ] {P : Policy κ τ ε} {w w' : World κ τ ε}
    {Check : Meta ε → Table κ → Prop} {res : Except Error Unit} (hw : w.table.Keyed)
    (h : P.InitEffect Check w res w') : w'.table.Keyed := by
  cases h with
  | unread => exact hw
  | noMaxSize => exact hw
  | unchecked => exact hw
  | rejected => exact hw
  | done => exact hw
  | removing res w' _ _ _ _ _ hrun =>
    have hcourse := Policy.removeCache_course (P := P) (w := (P.load w).tick 1) 0 [] hw
    unfold wp at hcourse
    rw [hrun] at hcourse
    have hsub := Algo.removeCourse_subset hcourse
    exact hw.sub hsub

theorem Lru.run_upholds {w : Lru.World} (hI : Lru.Le w.table w.metaMem.extra) (ops : List Lru.Op)
    (hops : RunOk Lru.step (Lru.algo.Counts Lru.Succ) w ops) :
    run Lru.stepAsserting w ops = run Lru.step w ops
      ∧ ∀ o ∈ (run Lru.step w ops).1, o ≠ .error .unfinished := by
  constructor
  · exact run_congr (I := fun w => Lru.Le w.table w.metaMem.extra) (fun w op hI hc =>
      ⟨(Lru.step_upholds op hI hc).1, (Lru.step_upholds op hI hc).2.2⟩) w ops hI hops
  · exact run_outputs (I := fun w => Lru.Le w.table w.metaMem.extra)
      (fun w op hI hc => (Lru.step_upholds op hI hc).2.2)
      (fun w op hI hc => (Lru.step_upholds op hI hc).2.1) w ops hI hops

theorem Lru.run_ne_constraint {w : Lru.World} (hw : w.table.Keyed)
    (hI : Lru.Le w.table w.metaMem.extra) (ops : List Lru.Op)
    (hops : RunOk Lru.step (Lru.algo.Counts Lru.Succ) w ops) (hkeys : ∀ op ∈ ops, KeyExact op.key) :
    ∀ o ∈ (run Lru.step w ops).1, o ≠ .error (.sqlite .constraint) := by
  refine run_outputs (I := fun w => w.table.Keyed ∧ Lru.Le w.table w.metaMem.extra)
    (fun w op h hc => ?_) (fun w op h hc => ?_) w ops ⟨hw, hI⟩
    (hops.and (RunOk.of_inputs w ops hkeys))
  · exact ⟨(Lru.step_course h.1 op).keyed h.1 hc.2, (Lru.step_upholds op h.2 hc.1).2.2⟩
  · exact Lru.course_ne_constraint h.1 h.2 hc.1 (Lru.step_course h.1 op)

/-- Whatever is in the database, as long as its rows have keys: after an `init` that returns, every
run of calls does what it does with the assertions, which never fail, and no loop runs longer than
there are rows; and as long as the keys are exact, no `UNIQUE` constraint is violated. The LFUDA
asks for nothing. -/
theorem runs_uphold (row : Option MetaRow) (fails : List ℕ) :
    (∀ t : Lru.Table, t.Keyed →
      let w₀ := Lru.policy.construct t row fails
      (outcome Lru.init w₀).1 = .ok () →
      let w := (outcome Lru.init w₀).2
      outcome Lru.initAsserting w₀ = outcome Lru.init w₀
        ∧ ∀ ops, RunOk Lru.step (Lru.algo.Counts Lru.Succ) w ops →
          run Lru.stepAsserting w ops = run Lru.step w ops
            ∧ (∀ o ∈ (run Lru.step w ops).1, o ≠ .error .unfinished)
            ∧ ((∀ op ∈ ops, KeyExact op.key) →
              ∀ o ∈ (run Lru.step w ops).1, o ≠ .error (.sqlite .constraint)))
    ∧ ∀ (R : Lfuda.Resolver) (t : Lfuda.Table),
      let w₀ := (Lfuda.policy R).construct t row fails
      let w := (outcome (Lfuda.init R) w₀).2
      outcome (Lfuda.initAsserting R) w₀ = outcome (Lfuda.init R) w₀
        ∧ (outcome (Lfuda.init R) w₀).1 ≠ .error .unfinished
        ∧ ∀ ops, run Lfuda.stepAsserting w ops = run Lfuda.step w ops
          ∧ ∀ o ∈ (run Lfuda.step w ops).1, o ≠ .error .unfinished := by
  constructor
  · intro t ht w₀ hinit w
    obtain ⟨heq, -, hle⟩ := Lru.init_upholds (w := w₀) ht
    have hI : Lru.Le w.table w.metaMem.extra := hle hinit
    have hw : w.table.Keyed := Policy.InitEffect.keyed ht (Lru.init_effect w₀)
    refine ⟨heq, fun ops hops => ?_⟩
    obtain ⟨h1, h2⟩ := Lru.run_upholds hI ops hops
    exact ⟨h1, h2, Lru.run_ne_constraint hw hI ops hops⟩
  · intro R t w₀ w
    obtain ⟨heq, hne, -⟩ := Lfuda.init_upholds (w := w₀) R
    refine ⟨heq, hne, fun ops => ?_⟩
    have hops : RunOk Lfuda.step (fun _ _ => True) w ops := RunOk.top w ops
    exact ⟨run_congr (I := fun _ => True) (fun w i _ _ => ⟨(Lfuda.step_upholds w i).1, trivial⟩) w
        ops trivial hops,
      run_outputs (I := fun _ => True) (fun _ _ _ _ => trivial)
        (fun w i _ _ => (Lfuda.step_upholds w i).2) w ops trivial hops⟩

/-- The recorded size is neither the sum of the sizes nor at least each of them: the first `put`
ends in a mismatch, the second makes room. -/
theorem runs_uphold_five :
    let rows : List (Row LruCols) :=
      [⟨[97], 3, 0, [], ⟨7⟩⟩, ⟨[98], 0, 0, [], ⟨-2⟩⟩, ⟨[99], 9, 0, [], ⟨4⟩⟩]
    let w := (outcome Lru.init (Lru.policy.construct ⟨rows, by decide⟩ (some ⟨4, 5, 7⟩) [])).2
    let ops : List Lru.Op := [.put ⟨[100], 4, 0, [], ⟨0⟩⟩, .put ⟨[100], 4, 0, [], ⟨0⟩⟩,
      .update [100] 2, .renew [100] ()]
    (run Lru.step w ops).1 = [.error (.algo .cacheSizeMismatch), .ok (.bool true), .ok (.bool true),
        .ok (.bool true)]
      ∧ run Lru.stepAsserting w ops = run Lru.step w ops
      ∧ ∀ o ∈ (run Lru.step w ops).1, o ≠ .error (.sqlite .constraint) := by
  intro rows w ops
  obtain ⟨-, h⟩ := (runs_uphold (some ⟨4, 5, 7⟩) []).1 ⟨rows, by decide⟩
    ⟨by decide, by decide⟩ (by decide)
  obtain ⟨heq, -, hconstraint⟩ := h ops (by decide)
  exact ⟨by decide, heq, hconstraint (by decide)⟩

end XCache
