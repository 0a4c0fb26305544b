import XCache.Proofs.Init

/-!
# The LRU's sequence numbers

`meta_lru.sequence` is the sequence of the row inserted or renewed last, and that row is never a
victim while another is left. So the number the next insertion or renewal writes is new, no
statement breaks a constraint, and `init` finds what it expects.
-/

namespace XCache

namespace Lru

/-- `meta_lru.sequence` is the greatest sequence in the table. -/
structure Good (t : Table) (x : Int64) : Prop where
  le : ∀ r ∈ t.rows, seq r ≤ x.toInt
  top : t.rows ≠ [] → ∃ r ∈ t.rows, seq r = x.toInt

section Order

variable {t : Table} {r : Row}

theorem seq_inj {a b : Row} (ha : a ∈ t.rows) (hb : b ∈ t.rows) (h : seq a = seq b) : a = b := by
  by_contra hne
  have hd : Row.Distinct a b ∨ Row.Distinct b a := by
    rcases List.pairwise_iff_getElem.1 t.unique with hp
    obtain ⟨i, hi, rfl⟩ := List.getElem_of_mem ha
    obtain ⟨j, hj, rfl⟩ := List.getElem_of_mem hb
    rcases lt_trichotomy i j with hij | rfl | hij
    · exact .inl (hp i j hi hj hij)
    · exact absurd rfl hne
    · exact .inr (hp j i hj hi hij)
  have hs : a.cols.sequence = b.cols.sequence := Int64.toInt_inj.1 h
  rcases hd with hd | hd
  · exact hd.2 hs
  · exact hd.2 hs.symm

theorem old_le (h : old t = some r) : ∀ r' ∈ t.rows, seq r ≤ seq r' :=
  least_le (f := seq) (fun _ _ => decide_eq_true_iff) h

theorem new_le (h : new t = some r) : ∀ r' ∈ t.rows, seq r' ≤ seq r := by
  have := least_le (κ := ℤᵒᵈ) (f := fun r => OrderDual.toDual (seq r))
    (fun _ _ => decide_eq_true_iff) h
  exact this

theorem new_none (h : new t = none) : t.rows = [] :=
  least_none (κ := ℤᵒᵈ) (f := fun r => OrderDual.toDual (seq r)) (fun _ _ => decide_eq_true_iff) h

end Order

/-- Evicting leaves the sequence alone. -/
theorem evict_extra (w : World) (D : List Row) :
    (policy.evict w D).metaMem.extra = w.metaMem.extra := by
  induction D generalizing w with
  | nil => rfl
  | cons r D ih =>
    rw [Policy.evict_cons, ih]
    rfl

theorem shrink_extra (w : World) (need : UInt64) :
    (policy.shrink w need).metaMem.extra = w.metaMem.extra := by
  rw [Policy.shrink_metaMem, evict_extra]

theorem toInt_succ {x : Int64} (h : x.toInt + 1 < 2 ^ 63) : (x + 1).toInt = x.toInt + 1 := by
  have hlo := x.le_toInt
  rw [Int64.toInt_add, Int64.toInt_one]
  exact Int.bmod_eq_of_le (by omega) (by omega)

section Fresh

variable {t : Table} {x : Int64}

/-- A sequence that is greater than all others breaks no constraint. -/
theorem insert_isSome (hle : ∀ r ∈ t.rows, seq r ≤ x.toInt) (hx : x.toInt + 1 < 2 ^ 63) {c : Cache}
    (hk : bindText c.key ∉ t.keys) : ∃ t', t.insert (algo.newRow x c) = some t' := by
  have hkey : (algo.newRow x c).key ∉ t.keys := by
    rw [Algo.newRow_key]
    exact hk
  refine Table.insert_isSome hkey fun r hr hclash => ?_
  have hle := hle r hr
  have hs : seq r = (x + 1).toInt := congrArg Int64.toInt hclash
  rw [toInt_succ hx] at hs
  omega

theorem renew_isSome (hle : ∀ r ∈ t.rows, seq r ≤ x.toInt) (hx : x.toInt + 1 < 2 ^ 63)
    (key : Bytes) : ∃ t', t.update key (touchRow algo.touch x ()) = some t' := by
  have hs := toInt_succ hx
  refine Table.commit_isSome (List.pairwise_map.2 ?_)
  refine t.unique.imp_of_mem fun {a b} ha hb hd => ?_
  have hla := hle a ha
  have hlb := hle b hb
  refine ⟨?_, ?_⟩
  · split_ifs <;> exact hd.1
  · intro hclash
    have hseq := congrArg Int64.toInt hclash
    split_ifs at hseq with hka hkb hkb
    · exact hd.1 (hka.trans hkb.symm)
    · have : (x + 1).toInt = seq b := hseq
      omega
    · have : seq a = (x + 1).toInt := hseq
      omega
    · exact hd.2 (Int64.toInt_inj.1 hseq)

end Fresh

theorem keeps : algo.Keeps Good where
  evict := by
    intro t x r hg hr
    refine ⟨fun r' hr' => hg.le r' (Table.delete_subset hr'), fun hne => ?_⟩
    obtain ⟨r₁, h₁⟩ := List.exists_mem_of_ne_nil _ hne
    obtain ⟨h₁t, h₁k⟩ := Table.mem_delete.1 h₁
    obtain ⟨m, hm, hmx⟩ := hg.top fun h0 => by rw [h0] at h₁t; cases h₁t
    refine ⟨m, Table.mem_delete.2 ⟨hm, fun hk => h₁k ?_⟩, hmx⟩
    -- the victim would be the newest row, hence the only one
    obtain rfl := Table.eq_of_key hm (policy.worst_mem hr) hk
    have hle := old_le hr r₁ h₁t
    have hge := hg.le r₁ h₁t
    rw [seq_inj h₁t hm (by omega)]
  insert_isSome hg hx hk := insert_isSome hg.le hx hk
  insert := by
    intro t t' x c hg hx ht
    have hs := toInt_succ hx
    refine ⟨fun r hr => ?_, fun _ => ⟨algo.newRow x c, ?_, rfl⟩⟩
    · show seq r ≤ (x + 1).toInt
      rw [Table.insert_rows ht, List.mem_append, List.mem_singleton] at hr
      rcases hr with hr | rfl
      · have := hg.le r hr
        omega
      · exact le_rfl
    · rw [Table.insert_rows ht]
      simp
  renew_isSome {_ _ _ r} hg _ hx := renew_isSome hg.le hx r.key
  renew := by
    intro t t' x a r hg hr hx ht
    have hs := toInt_succ hx
    refine ⟨fun r' hr' => ?_, fun _ => ⟨_, (Table.mem_update ht).2 ⟨r, hr, if_pos rfl⟩, rfl⟩⟩
    obtain ⟨r₀, h₀, rfl⟩ := (Table.mem_update ht).1 hr'
    have hle := hg.le r₀ h₀
    show _ ≤ (x + 1).toInt
    split_ifs
    · exact le_rfl
    · omega
  setSize := by
    intro t t' x key n hg ht
    have hseq : ∀ r : Row, seq (if r.key = key then Policy.setSize n r else r) = seq r := by
      intro r
      split_ifs <;> rfl
    refine ⟨fun r hr => ?_, fun hne => ?_⟩
    · obtain ⟨r₀, h₀, rfl⟩ := (Table.mem_update ht).1 hr
      rw [hseq]
      exact hg.le r₀ h₀
    · have hne' : t.rows ≠ [] := by
        rintro h0
        rw [Table.update_rows ht, h0] at hne
        exact hne rfl
      obtain ⟨m, hm, hmx⟩ := hg.top hne'
      exact ⟨_, (Table.mem_update ht).2 ⟨m, hm, rfl⟩, (hseq m).trans hmx⟩

/-- The state of the object tallies with its rows as `init` asks. -/
theorem check {w : World} (hI : Inv Good w) : Check w.metaMem w.table := by
  rcases hn : new w.table with _ | r
  · have h0 := hI.sound.cacheSize_nil (new_none hn)
    refine ⟨fun _ => h0, fun h => absurd ?_ h, fun h => absurd ?_ h⟩ <;>
      rw [hn] <;> rfl
  · have hr := least_mem hn
    refine ⟨fun h => ?_, fun _ => ?_, fun _ => ?_⟩
    · rw [hn] at h
      exact absurd h (hI.sound.plain.getRow_key_ne (P := policy) hr)
    · rw [hn]
      obtain ⟨m, hm, hmx⟩ := hI.good.top (List.ne_nil_of_mem hr)
      have h1 := new_le hn m hm
      have h2 := hI.good.le r hr
      exact Int64.toInt_inj.1 (show seq r = _ by omega)
    · rw [hn]
      exact hI.sound.size_le hr

/-! ## Runs from a fresh database -/

theorem good_empty (x : Int64) : Good Table.empty x :=
  ⟨fun _ hr => absurd hr List.not_mem_nil, fun h => absurd rfl h⟩

theorem loaded_fresh (M : UInt64) : policy.loaded (fresh M) = ⟨0, M, 0⟩ :=
  Policy.loaded_of_row (P := policy) (w := fresh M) rfl

theorem init_fresh {M : UInt64} (hM : M ≠ 0) :
    outcome init (fresh M) = (.ok (), (policy.load (fresh M)).tick 1) := by
  have hload := loaded_fresh M
  have hc : Check ⟨0, M, 0⟩ (fresh M).table :=
    ⟨fun _ => rfl, fun h => absurd rfl h, fun h => absurd rfl h⟩
  have h := (init_effect (fresh M)).ok rfl (by rw [hload]; exact hM) (by rw [hload]; exact hc)
    (by rw [hload]; exact UInt64.zero_le)
  exact Prod.ext h.1 h.2

theorem start_metaMem {M : UInt64} (hM : M ≠ 0) : (start M).metaMem = ⟨0, M, 0⟩ := by
  rw [start, init_fresh hM]
  exact loaded_fresh M

theorem start_table {M : UInt64} (hM : M ≠ 0) : (start M).table = Table.empty := by
  rw [start, init_fresh hM]
  rfl

theorem start_fails {M : UInt64} (hM : M ≠ 0) : (start M).fails = [] := by
  rw [start, init_fresh hM]
  rfl

theorem start_metaRow {M : UInt64} (hM : M ≠ 0) :
    (start M).metaRow = some (policy.bindMeta (start M).metaMem) := by
  rw [start_metaMem hM, start, init_fresh hM]
  rfl

theorem inv_start {M : UInt64} (hM : M ≠ 0) : Inv Good (start M) :=
  Algo.inv_empty hM (start_table hM) (start_metaMem hM) (good_empty 0)

/-- One call of a run. -/
theorem step_inv (w : World) (op : Op) (hI : Inv Good w ∧ w.fails = []) (ho : algo.Admits w op) :
    (Inv Good (step w op).2 ∧ (step w op).2.fails = []) ∧ Answers (step w op).1 := by
  rw [step, call_eq]
  obtain ⟨h1, h2, h3⟩ := Algo.call_inv keeps hI.1 hI.2 ho
  exact ⟨⟨h1, h2⟩, h3⟩

theorem run_inv {M : UInt64} (hM : M ≠ 0) (ops : List Op)
    (hops : RunOk step algo.Admits (start M) ops) :
    Inv Good (run step (start M) ops).2 ∧ (run step (start M) ops).2.fails = [] :=
  run_invariant (fun w op hI ho => (step_inv w op hI ho).1) (start M) ops
    ⟨inv_start hM, start_fails hM⟩ hops

/-- The meta record tallies with the rows. -/
structure Accounts (w : World) : Prop where
  sum : w.table.total = w.metaMem.cacheSize.toNat
  within : w.metaMem.cacheSize ≤ w.metaMem.maxSize
  sizes : ∀ r ∈ w.table.rows, 1 ≤ r.bytes
  keys : w.table.keys.Nodup
  sequences : (w.table.rows.map seq).Nodup
  le : ∀ r ∈ w.table.rows, seq r ≤ w.metaMem.extra.toInt
  top : w.table.rows ≠ [] → ∃ r ∈ w.table.rows, seq r = w.metaMem.extra.toInt

theorem accounts {w : World} (hI : Inv Good w) : Accounts w where
  sum := hI.sound.total
  within := hI.within
  sizes := hI.sound.plain.pos
  keys := w.table.keys_nodup
  sequences := List.Nodup.map_on (fun _ ha _ hb h => seq_inj ha hb h)
    (List.Nodup.of_map _ w.table.keys_nodup)
  le := hI.good.le
  top := hI.good.top

/-- After every run the meta record tallies with the rows, and no call of it met an inconsistent
database or a broken constraint. -/
theorem run_accounts {M : UInt64} (hM : M ≠ 0) (ops : List Op)
    (hops : RunOk step algo.Admits (start M) ops) :
    (outcome init (fresh M)).1 = .ok () ∧ Accounts (run step (start M) ops).2
      ∧ ∀ o ∈ (run step (start M) ops).1, Answers o := by
  refine ⟨by rw [init_fresh hM], accounts (run_inv hM ops hops).1, ?_⟩
  exact run_outputs (fun w op hI ho => (step_inv w op hI ho).1)
    (fun w op hI ho => (step_inv w op hI ho).2) (start M) ops ⟨inv_start hM, start_fails hM⟩ hops

/-- Two files fill the cache; the third evicts the first, and growing the second evicts it. -/
theorem run_accounts_ten :
    let ops : List Op := [.put ⟨[97], 5, 0, [], ⟨0⟩⟩, .put ⟨[98], 5, 0, [], ⟨0⟩⟩,
      .put ⟨[99], 4, 0, [], ⟨0⟩⟩, .renew [99] (), .update [98] 7, .put ⟨[99], 11, 0, [], ⟨0⟩⟩]
    (outcome init (fresh 10)).1 = .ok () ∧ Accounts (run step (start 10) ops).2
      ∧ ∀ o ∈ (run step (start 10) ops).1, Answers o :=
  run_accounts (by decide) _ (by decide)

end Lru

end XCache
