import XCache.Proofs.Init

/-!
# The LFUDA's dynamic aging

A row's `eff` was computed from a `global_aging` of the past, so it lies between the present one and
`freq` above it. An eviction raises `global_aging` to the victim's `eff`, which is the least: so the
bound holds of the rows left, and `global_aging` never decreases. A renewal computes `eff` from the
present `global_aging` and one more `freq`, so it raises `eff`.
-/

namespace XCache

namespace Lfuda

/-- `freq` and `eff` of a row, as the program reads them. -/
def freq (r : Row) : ℕ := (columnUInt64 r.cols.freq).toNat

def eff (r : Row) : ℕ := (columnUInt64 r.cols.eff).toNat

/-- What one row keeps while `global_aging` is `x`. -/
structure RowGood (x : UInt64) (r : Row) : Prop where
  freq_pos : 1 ≤ freq r
  aging_le : x.toNat ≤ eff r
  le_aging : eff r ≤ freq r + x.toNat
  eff_lt : eff r < 2 ^ 63

def Good (t : Table) (x : UInt64) : Prop := ∀ r ∈ t.rows, RowGood x r

/-- SQLite's signed order is the program's where the numbers are small. -/
theorem toInt_eff {r : Row} (h : eff r < 2 ^ 63) : r.cols.eff.toInt = eff r := by
  have hnat : eff r = r.cols.eff.toBitVec.toNat := rfl
  rw [← Int64.toInt_toBitVec, BitVec.toInt_eq_toNat_of_lt (by omega), hnat]

/-- The victim has the least `eff`. -/
theorem eff_le {R : Resolver} {t : Table} {x : UInt64} {r r' : Row} (hg : Good t x)
    (hr : R.pick t = some r) (hr' : r' ∈ t.rows) : eff r ≤ eff r' := by
  have hle := R.pick_le hr r' hr'
  have hfst : r.cols.eff.toInt ≤ r'.cols.eff.toInt := by
    rcases (Prod.Lex.toLex_le_toLex.1 hle) with h | h
    · exact le_of_lt h
    · exact le_of_eq h.1
  rw [toInt_eff (hg r (R.pick_mem hr)).eff_lt, toInt_eff (hg r' hr').eff_lt] at hfst
  exact_mod_cast hfst

/-! ## What the statements write -/

section Writes

variable (R : Resolver) {x : UInt64}

theorem newRow_freq (c : Cache) : freq ((algo R).newRow x c) = 1 := rfl

theorem newRow_eff (c : Cache) (h : x.toNat + 1 < 2 ^ 63) :
    eff ((algo R).newRow x c) = x.toNat + 1 := by
  show (columnUInt64 (bindUInt64 (x + 1))).toNat = _
  simp only [columnUInt64, bindUInt64, UInt64.toUInt64_toInt64]
  rw [UInt64.toNat_add, UInt64.toNat_one, Nat.mod_eq_of_lt (by omega)]

variable {r : Row} (ts : UInt64) (h : freq r + 1 + x.toNat < 2 ^ 63)

include h

theorem touchRow_freq : freq (touchRow touch x ts r) = freq r + 1 := by
  show (columnUInt64 (bindUInt64 (columnUInt64 r.cols.freq + 1))).toNat = _
  have hf : (columnUInt64 r.cols.freq).toNat = freq r := rfl
  simp only [columnUInt64, bindUInt64, UInt64.toUInt64_toInt64] at hf ⊢
  rw [UInt64.toNat_add, UInt64.toNat_one, hf, Nat.mod_eq_of_lt (by omega)]

theorem touchRow_eff : eff (touchRow touch x ts r) = freq r + 1 + x.toNat := by
  show (columnUInt64 (bindUInt64 (columnUInt64 r.cols.freq + 1 + x))).toNat = _
  have hf : (columnUInt64 r.cols.freq).toNat = freq r := rfl
  simp only [columnUInt64, bindUInt64, UInt64.toUInt64_toInt64] at hf ⊢
  rw [UInt64.toNat_add, UInt64.toNat_add, UInt64.toNat_one, hf,
    Nat.mod_eq_of_lt (a := freq r + 1) (by omega), Nat.mod_eq_of_lt (by omega)]

theorem touchRow_good : RowGood x (touchRow touch x ts r) := by
  have hf := touchRow_freq ts h
  have he := touchRow_eff ts h
  exact ⟨by omega, by omega, by omega, by omega⟩

end Writes

theorem keeps (R : Resolver) : (algo R).Keeps Good where
  evict := by
    intro t x r hg hr r' hr'
    have hr't := Table.delete_subset hr'
    have hle := eff_le hg hr hr't
    have hold := hg r' hr't
    have hvictim := hg r (R.pick_mem hr)
    refine ⟨hold.freq_pos, hle, ?_, hold.eff_lt⟩
    show eff r' ≤ freq r' + eff r
    have := hold.le_aging
    have := hvictim.aging_le
    omega
  insert_isSome := by
    intro t x c hg hx hk
    have hkey : ((algo R).newRow x c).key ∉ t.keys := by
      rw [Algo.newRow_key]
      exact hk
    exact Table.insert_isSome hkey fun _ _ hclash => hclash
  insert := by
    intro t t' x c hg hx ht r hr
    have hx' : x.toNat + 1 < 2 ^ 63 := by
      have : (x.toNat : ℤ) + 1 < 2 ^ 63 := hx
      omega
    rw [Table.insert_rows ht, List.mem_append, List.mem_singleton] at hr
    rcases hr with hr | rfl
    · exact hg r hr
    · have hf := newRow_freq R (x := x) c
      have he := newRow_eff R c hx'
      exact ⟨by omega, show x.toNat ≤ _ by omega, show _ ≤ _ + x.toNat by omega, by omega⟩
  renew_isSome := by
    intro t x a r hg hr hx
    refine Table.commit_isSome (List.pairwise_map.2 (t.unique.imp fun {a b} hd => ?_))
    refine ⟨?_, fun hclash => hclash⟩
    split_ifs <;> exact hd.1
  renew := by
    intro t t' x a r hg hr hx ht r' hr'
    have hx' : freq r + 1 + x.toNat < 2 ^ 63 := by
      have : (freq r : ℤ) + 1 + x.toNat < 2 ^ 63 := hx
      omega
    obtain ⟨r₀, h₀, rfl⟩ := (Table.mem_update ht).1 hr'
    split_ifs with hk
    · rw [Table.eq_of_key h₀ hr hk]
      exact touchRow_good _ hx'
    · exact hg r₀ h₀
  setSize := by
    intro t t' x key n hg ht r' hr'
    obtain ⟨r₀, h₀, rfl⟩ := (Table.mem_update ht).1 hr'
    have := hg r₀ h₀
    split_ifs
    · exact ⟨this.freq_pos, this.aging_le, this.le_aging, this.eff_lt⟩
    · exact this

/-- The state of the object tallies with its rows as `init` asks. -/
theorem check {w : World} (R : Resolver) (hI : Inv Good w) : Check R w.metaMem w.table := by
  rcases hn : R.pick w.table with _ | r
  · have h0 := hI.sound.cacheSize_nil (R.pick_none hn)
    refine ⟨fun _ => h0, fun h => absurd ?_ h⟩
    rw [hn]
    rfl
  · have hr := R.pick_mem hn
    refine ⟨fun h => ?_, fun _ => ?_⟩
    · rw [hn] at h
      exact absurd h (hI.sound.plain.getRow_key_ne (P := policy R) hr)
    · rw [hn]
      exact hI.sound.size_le hr

/-! ## `global_aging` never decreases -/

section Monotone

variable {R : Resolver} {w w' : World}

theorem aging_evict {D : List Row} (hg : Good w.table w.metaMem.extra)
    (hD : D <+: (policy R).order w.table) :
    w.metaMem.extra ≤ ((policy R).evict w D).metaMem.extra := by
  induction D generalizing w with
  | nil => exact UInt64.le_refl _
  | cons r D ih =>
    obtain ⟨hr, hD⟩ := Policy.prefix_order_cons hD
    have hstep : w.metaMem.extra ≤ ((policy R).evictOne w r).metaMem.extra :=
      UInt64.le_iff_toNat_le.2 (hg r (R.pick_mem hr)).aging_le
    exact UInt64.le_trans hstep (ih (w := (policy R).evictOne w r) ((keeps R).evict hg hr) hD)

theorem aging_shrink (hg : Good w.table w.metaMem.extra) (need : UInt64) :
    w.metaMem.extra ≤ ((policy R).shrink w need).metaMem.extra := by
  rw [Policy.shrink_metaMem]
  exact aging_evict hg (Policy.dropped_isPrefix need)

theorem aging_sizeEffect {key : Bytes} {size n : UInt64} {res : Except Error Unit}
    (hg : Good w.table w.metaMem.extra) (h : (algo R).SizeEffect w key size n res w') :
    w.metaMem.extra ≤ w'.metaMem.extra := by
  have hroom : w.metaMem.extra ≤ ((algo R).roomFor w size n).metaMem.extra := by
    unfold Algo.roomFor
    split_ifs
    · exact aging_shrink hg _
    · exact UInt64.le_refl _
  cases h with
  | same => exact UInt64.le_refl _
  | evictFailed D _ hD => exact aging_evict hg (hD.trans (Policy.dropped_isPrefix _))
  | aborted => exact aging_shrink hg _
  | contentFailed => exact hroom
  | resized => exact hroom

theorem aging_effect {op : Op} {res : Except Error Ret} (hg : Good w.table w.metaMem.extra)
    (ho : (algo R).NoOverflow w op) (h : (algo R).Effect w op res w') :
    w.metaMem.extra ≤ w'.metaMem.extra := by
  cases h with
  | putEvictFailed c D _ _ hD =>
    exact aging_evict (w := w.tick 1) hg (hD.trans (Policy.dropped_isPrefix _))
  | putInsertFailed c => exact aging_shrink (w := w.tick 1) hg c.size
  | putConflict c => exact aging_shrink (w := w.tick 1) hg c.size
  | put c t => exact aging_shrink (w := w.tick 1) hg c.size
  | putGrown c r t res' w' hc hr hrk _ ht hs =>
    exact aging_sizeEffect (w := (algo R).renewWorld (w.tick 1) t)
      ((keeps R).renew hg hr ((ho hc).2 r hr hrk).2 (hrk ▸ ht)) hs
  | updated k n r res' w' _ _ _ hs => exact aging_sizeEffect (w := w.tick 1) hg hs
  | resizeFailed n D w₁ _ hw₁ hD =>
    subst hw₁
    exact aging_evict (w := { w with metaMem := { w.metaMem with maxSize := n } }) hg
      (hD.trans (Policy.dropped_isPrefix _))
  | resize n w₁ _ hw₁ =>
    subst hw₁
    exact aging_shrink (w := { w with metaMem := { w.metaMem with maxSize := n } }) hg 0
  | _ => exact UInt64.le_refl _

end Monotone

/-! ## Runs from a fresh database -/

/-- What a call of a run is asked. -/
def Admits (w : World) (i : Resolver × Op) : Prop := (algo i.1).Admits w i.2

instance (w : World) (i : Resolver × Op) : Decidable (Admits w i) :=
  inferInstanceAs (Decidable ((algo i.1).Admits w i.2))

theorem loaded_fresh (R : Resolver) (M : UInt64) : (policy R).loaded (fresh M) = ⟨0, M, 0⟩ :=
  Policy.loaded_of_row (P := policy R) (w := fresh M) rfl

theorem pick_empty (R : Resolver) : R.pick Table.empty = none := by
  rcases h : R.pick Table.empty with _ | r
  · rfl
  · exact absurd (R.pick_mem h) List.not_mem_nil

theorem init_fresh (R : Resolver) {M : UInt64} (hM : M ≠ 0) :
    outcome (init R) (fresh M) = (.ok (), ((policy R).load (fresh M)).tick 1) := by
  have hload := loaded_fresh R M
  have hc : Check R ⟨0, M, 0⟩ (fresh M).table := by
    refine ⟨fun _ => rfl, fun h => absurd ?_ h⟩
    rw [show R.pick (fresh M).table = none from pick_empty R]
    rfl
  have h := (init_effect R (fresh M)).ok rfl (by rw [hload]; exact hM)
    (by rw [hload]; exact hc) (by rw [hload]; exact UInt64.zero_le)
  exact Prod.ext h.1 h.2

theorem start_metaMem {M : UInt64} (hM : M ≠ 0) : (start M).metaMem = ⟨0, M, 0⟩ := by
  rw [start, init_fresh .first hM]
  exact loaded_fresh .first M

theorem start_table {M : UInt64} (hM : M ≠ 0) : (start M).table = Table.empty := by
  rw [start, init_fresh .first hM]
  rfl

theorem start_fails {M : UInt64} (hM : M ≠ 0) : (start M).fails = [] := by
  rw [start, init_fresh .first hM]
  rfl

theorem start_metaRow {M : UInt64} (hM : M ≠ 0) :
    (start M).metaRow = some ((policy .first).bindMeta (start M).metaMem) := by
  rw [start_metaMem hM, start, init_fresh .first hM]
  rfl

theorem inv_start {M : UInt64} (hM : M ≠ 0) : Inv Good (start M) :=
  Algo.inv_empty hM (start_table hM) (start_metaMem hM) fun _ hr => absurd hr List.not_mem_nil

/-- One call of a run. -/
theorem step_inv (w : World) (i : Resolver × Op) (hI : Inv Good w ∧ w.fails = [])
    (ho : Admits w i) :
    (Inv Good (step w i).2 ∧ (step w i).2.fails = []) ∧ Answers (step w i).1 := by
  rw [step, call_eq]
  obtain ⟨h1, h2, h3⟩ := Algo.call_inv (keeps i.1) hI.1 hI.2 ho
  exact ⟨⟨h1, h2⟩, h3⟩

theorem run_inv {M : UInt64} (hM : M ≠ 0) (ops : List (Resolver × Op))
    (hops : RunOk step Admits (start M) ops) :
    Inv Good (run step (start M) ops).2 ∧ (run step (start M) ops).2.fails = [] :=
  run_invariant (fun w i hI ho => (step_inv w i hI ho).1) (start M) ops
    ⟨inv_start hM, start_fails hM⟩ hops

theorem step_aging {w : World} {i : Resolver × Op} (hI : Inv Good w) (ho : Admits w i) :
    w.metaMem.extra ≤ (step w i).2.metaMem.extra := by
  rw [step, call_eq]
  exact aging_effect hI.good ho.2 ((algo i.1).call_effect hI.sound i.2)

theorem run_aging {w : World} (hI : Inv Good w ∧ w.fails = []) (ops : List (Resolver × Op))
    (hops : RunOk step Admits w ops) : w.metaMem.extra ≤ (run step w ops).2.metaMem.extra :=
  (run_invariant (I := fun w' => (Inv Good w' ∧ w'.fails = []) ∧ w.metaMem.extra ≤ w'.metaMem.extra)
    (fun w' i h ho => ⟨(step_inv w' i h.1 ho).1, UInt64.le_trans h.2 (step_aging h.1.1 ho)⟩)
    w ops ⟨hI, UInt64.le_refl _⟩ hops).2

/-! ## A renewal raises `eff` -/

theorem eff_lt_touchRow {x : UInt64} {r : Row} (hg : RowGood x r) (ts : UInt64)
    (h : freq r + 1 + x.toNat < 2 ^ 63) : eff r < eff (touchRow touch x ts r) := by
  rw [touchRow_eff ts h]
  have := hg.le_aging
  omega

/-- A renewal of a resident row, and the row it leaves. -/
theorem renew_raises {w : World} {key : Bytes} {r : Row} (ts : UInt64) (hI : Inv Good w)
    (hq : w.fails = []) (hkey : KeyExact key) (hr : r ∈ w.table.rows) (hk : r.key = key)
    (h : freq r + 1 + w.metaMem.extra.toNat < 2 ^ 63) :
    ∃ t, w.table.update key (touchRow touch w.metaMem.extra ts) = some t
      ∧ outcome (renew key ts) w = (.ok true, (algo .first).renewWorld w t)
      ∧ ∃ r' ∈ t.rows, r'.key = key ∧ eff r < eff r' := by
  have hcount : (algo .first).renewCount w.metaMem.extra r.cols < 2 ^ 63 := by
    show (freq r : ℤ) + 1 + w.metaMem.extra.toNat < 2 ^ 63
    omega
  obtain ⟨t, ht⟩ := (keeps .first).renew_isSome (a := ts) hI.good hr hcount
  subst hk
  have hb := hkey.bound
  have hmem : bindText r.key ∈ w.table.keys := by
    rw [hb]
    exact Table.mem_keys.2 ⟨r, hr, rfl⟩
  refine ⟨t, ht, ?_, touchRow touch w.metaMem.extra ts r, ?_, rfl,
    eff_lt_touchRow (hI.good r hr) ts h⟩
  · exact (algo .first).renew_ok hI.sound.plain hq (hI.sound.plain.nonempty r hr) hmem
      (by rw [hb]; exact ht)
  · exact (Table.mem_update ht).2 ⟨r, hr, if_pos rfl⟩

/-- What a call of `renew` that returns true has done to the row. -/
def RenewRaises (w : World) : Prop :=
  ∀ (R : Resolver) (key : Bytes) (ts : UInt64), Admits w (R, .renew key ts) →
    (step w (R, .renew key ts)).1 = .ok (.bool true) →
    ∃ r ∈ w.table.rows, ∃ r' ∈ (step w (R, .renew key ts)).2.table.rows,
      r.key = key ∧ r'.key = key ∧ eff r < eff r'

/-- A `put` of a resident key that passes the checks renews the row after its first statement, and
then goes on to `update_size` for a larger size. -/
def PutRaises (w : World) : Prop :=
  ∀ (R : Resolver) (c : Cache) (r : Row), Admits w (R, .put c) → Algo.Accepts w c.key c.size →
    r ∈ w.table.rows → r.key = c.key →
    ∃ w₁, outcome (renew c.key c.fields.timestamp) (w.tick 1) = (.ok true, w₁)
      ∧ (∃ r₁ ∈ w₁.table.rows, r₁.key = c.key ∧ eff r < eff r₁)
      ∧ outcome (put R c) w =
        if c.size > columnUInt64 r.size then
          outcome (do
            updateSize R ((policy R).getRow r) c.size
            return false) w₁
        else (.ok false, w₁)

theorem renewRaises {w : World} (hI : Inv Good w) (hq : w.fails = []) : RenewRaises w := by
  intro R key ts ho hret
  have hkey : KeyExact key := ho.1
  have hcall : (step w (R, .renew key ts)).1 = (outcome (renew key ts) w).1.map Ret.bool
      ∧ (step w (R, .renew key ts)).2 = (outcome (renew key ts) w).2 := by
    have hrule : wp (call R (.renew key ts)) (fun res w' =>
        res = (outcome (renew key ts) w).1.map Ret.bool ∧ w' = (outcome (renew key ts) w).2) w :=
      Algo.wp_map.2 ⟨rfl, rfl⟩
    exact hrule
  by_cases hmem : key ∈ w.table.keys
  · obtain ⟨r, hr, hk⟩ := Table.mem_keys.1 hmem
    have hover : (freq r : ℤ) + 1 + w.metaMem.extra.toNat < 2 ^ 63 :=
      ho.2 r hr (hk.trans hkey.bound.symm)
    obtain ⟨t, -, hout, r', hr', hk', hlt⟩ := renew_raises ts hI hq hkey hr hk (by omega)
    refine ⟨r, hr, r', ?_, hk, hk', hlt⟩
    rw [hcall.2, hout]
    exact hr'
  · have h := (algo R).call_effect hI.sound (.renew key ts)
    rw [← call_eq, show outcome (call R (.renew key ts)) w = step w (R, .renew key ts) from rfl,
      hret] at h
    generalize (step w (R, .renew key ts)).2 = w' at h
    cases h with
    | renewed _ _ t _ hmem' =>
      rw [hkey.bound] at hmem'
      exact absurd hmem' hmem

theorem putRaises {w : World} (hI : Inv Good w) (hq : w.fails = []) : PutRaises w := by
  intro R c r ho hc hr hk
  have hkey : KeyExact c.key := ho.1
  have hb := hkey.bound
  have hover : (freq r : ℤ) + 1 + w.metaMem.extra.toNat < 2 ^ 63 :=
    ((ho.2 hc).2 r hr (hk.trans hb.symm)).2
  have hI₁ : Inv Good (w.tick 1) := ⟨hI.sound.tick 1, hI.good, hI.within⟩
  obtain ⟨t, ht, hout, hrow⟩ := renew_raises (w := w.tick 1) c.fields.timestamp hI₁ hq hkey hr hk
    (by rw [tick_metaMem]; omega)
  refine ⟨_, hout, hrow, ?_⟩
  exact (algo R).put_resident hI.sound hq hc hr (hk.trans hb.symm) (hk ▸ ht)

/-- `cache_size` tallies with the rows, and their `eff` with `global_aging`. -/
structure Accounts (w : World) : Prop where
  sum : w.table.total = w.metaMem.cacheSize.toNat
  within : w.metaMem.cacheSize ≤ w.metaMem.maxSize
  freq_pos : ∀ r ∈ w.table.rows, 1 ≤ freq r
  aging_le : ∀ r ∈ w.table.rows, w.metaMem.extra.toNat ≤ eff r
  le_aging : ∀ r ∈ w.table.rows, eff r ≤ freq r + w.metaMem.extra.toNat

theorem accounts {w : World} (hI : Inv Good w) : Accounts w where
  sum := hI.sound.total
  within := hI.within
  freq_pos r hr := (hI.good r hr).freq_pos
  aging_le r hr := (hI.good r hr).aging_le
  le_aging r hr := (hI.good r hr).le_aging

/-- After every run the accounting and the bounds on `eff` hold, and renewals raise `eff`;
`global_aging` has never decreased, and no call of the run met an inconsistent database. -/
theorem run_ages {M : UInt64} (hM : M ≠ 0) (ops : List (Resolver × Op))
    (hops : RunOk step Admits (start M) ops) :
    (∀ R, (outcome (init R) (fresh M)).1 = .ok ())
      ∧ Accounts (run step (start M) ops).2
      ∧ (∀ before after, ops = before ++ after →
        (run step (start M) before).2.metaMem.extra ≤ (run step (start M) ops).2.metaMem.extra)
      ∧ RenewRaises (run step (start M) ops).2
      ∧ PutRaises (run step (start M) ops).2
      ∧ ∀ o ∈ (run step (start M) ops).1, Answers o := by
  obtain ⟨hI, hq⟩ := run_inv hM ops hops
  refine ⟨fun R => by rw [init_fresh R hM], accounts hI, ?_, renewRaises hI hq, putRaises hI hq, ?_⟩
  · rintro before after rfl
    obtain ⟨h1, h2⟩ := runOk_append.1 hops
    rw [run_append]
    exact run_aging (run_inv hM before h1) after h2
  · exact run_outputs (fun w i hI ho => (step_inv w i hI ho).1)
      (fun w i hI ho => (step_inv w i hI ho).2) (start M) ops ⟨inv_start hM, start_fails hM⟩ hops

/-- The third file evicts the first, whose `eff` of 2 becomes `global_aging`. -/
theorem run_ages_ten :
    let ops : List (Resolver × Op) := [(.first, .put ⟨[97], 5, 0, [], ⟨1, 0, 0⟩⟩),
      (.first, .renew [97] 2), (.first, .put ⟨[98], 4, 0, [], ⟨3, 0, 0⟩⟩), (.first, .renew [98] 4),
      (.first, .put ⟨[99], 6, 0, [], ⟨5, 0, 0⟩⟩), (.first, .update [98] 9)]
    (∀ R, (outcome (init R) (fresh 10)).1 = .ok ())
      ∧ Accounts (run step (start 10) ops).2
      ∧ (∀ before after, ops = before ++ after →
        (run step (start 10) before).2.metaMem.extra ≤ (run step (start 10) ops).2.metaMem.extra)
      ∧ RenewRaises (run step (start 10) ops).2
      ∧ PutRaises (run step (start 10) ops).2
      ∧ ∀ o ∈ (run step (start 10) ops).1, Answers o :=
  run_ages (by decide) _ (by decide)

end Lfuda

end XCache
