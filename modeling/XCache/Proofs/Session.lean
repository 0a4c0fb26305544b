import XCache.Proofs.Backup

/-!
# Sessions that do not get past `init`

The destructor writes the record in memory to the database, whatever has been loaded. Until
`query_meta` has returned that is the zero record of the constructor, so a session without `init`,
or with one that fails at once, erases the meta record; from then on `init` throws.
-/

namespace XCache

variable {κ τ ε : Type} [Columns κ]

/-- `init` is left by an exception at one of its two queries or at one of its checks. -/
def Leaves (init : Call κ τ ε Unit) (w : World κ τ ε) : Prop :=
  0 ∈ w.fails ∨ 1 ∈ w.fails ∨ ∃ e : AlgoError, e.IsInitCheck ∧ (outcome init w).1 = .error (.algo e)

namespace Policy

variable (P : Policy κ τ ε)

/-- The database after a session on it: the object is constructed, `init` called or not, and the
object destroyed. The destructor's statement succeeds. -/
def visit (init : Call κ τ ε Unit) (called : Bool) (w : World κ τ ε) : World κ τ ε :=
  (outcome P.backup ((if called then (outcome init w).2 else w).faulty [])).2

/-- The meta record is what it was, and so is what the next `init` loads. -/
def Kept (w w' : World κ τ ε) : Prop :=
  w'.metaRow = w.metaRow ∧ P.loaded (P.reopen w') = P.loaded w

variable {P} {w : World κ τ ε}

theorem bindMeta_columnMeta (row : MetaRow) : P.bindMeta (P.columnMeta row) = row := by
  simp [columnMeta, bindMeta, columnUInt64, bindUInt64, P.bindExtra_columnExtra]

theorem removeCache_not_initCheck (need : UInt64) (mark : Bytes) (w : World κ τ ε) :
    ∀ e : AlgoError, (outcome (P.removeCache need mark) w).1 = .error (.algo e) →
      ¬ e.IsInitCheck := by
  have h : wp (P.removeCache need mark)
      (fun res _ => ∀ e : AlgoError, res = .error (.algo e) → ¬ e.IsInitCheck) w := by
    refine wp_removeCache (I := fun _ _ _ => True) ?_ trivial
    constructor
    · rintro _ _ _ _ _ e ⟨⟩
    · rintro _ _ _ _ _ _ e ⟨⟩
    · rintro _ _ _ _ _ _ e ⟨⟩
      exact id
    · rintro _ _ _ _ _ _ _ _ e ⟨⟩
      exact id
    · rintro _ _ _ _ _ _ _ _ e ⟨⟩
      exact id
    · intros
      trivial
  exact h

theorem visit_metaRow {init : Call κ τ ε Unit} {called : Bool} :
    (P.visit init called w).metaRow = (if called then (outcome init w).2 else w).metaRow.map
      fun _ => P.bindMeta (if called then (outcome init w).2 else w).metaMem := by
  have h := (wp_backup (P := P) (w := (if called then (outcome init w).2 else w).faulty [])
    (Q := fun _ w' => w'.metaRow = (if called then (outcome init w).2 else w).metaRow.map
      fun _ => P.bindMeta (if called then (outcome init w).2 else w).metaMem)).2
  exact h ⟨fun hf => absurd hf List.not_mem_nil, fun _ => rfl⟩

theorem kept_iff {w' : World κ τ ε} : P.Kept w w' ↔ w'.metaRow = w.metaRow := by
  refine ⟨And.left, fun h => ⟨h, ?_⟩⟩
  show (w'.metaRow.map P.columnMeta).getD P.noMeta = _
  rw [h]
  rfl

/-- The record of the constructor is none that `init` accepts. -/
theorem bindMeta_zero_ne {row : MetaRow} (hmax : 1 ≤ columnUInt64 row.maxSize) :
    P.bindMeta ⟨0, 0, P.zeroExtra⟩ ≠ row := by
  rintro rfl
  have hmax : 1 ≤ columnUInt64 (bindUInt64 0) := hmax
  exact absurd hmax (by decide)

/-- Where `init` is left early, it has loaded the record unless its first query failed. -/
theorem leaves_metaMem {Check : Meta ε → Table κ → Prop} {init : Call κ τ ε Unit}
    (h : wp init (P.InitEffect Check w) w) (hclock : w.clock = 0) (hleave : Leaves init w) :
    (outcome init w).2.metaRow = w.metaRow
      ∧ (0 ∈ w.fails → (outcome init w).2.metaMem = w.metaMem)
      ∧ (0 ∉ w.fails → (outcome init w).2.metaMem = P.loaded w) := by
  unfold wp at h
  unfold Leaves at hleave
  rcases ho : outcome init w with ⟨res, v⟩
  rw [ho] at h hleave
  rw [← hclock] at hleave ⊢
  cases h with
  | unread hf => exact ⟨rfl, fun _ => rfl, fun hok => absurd hf hok⟩
  | noMaxSize hok => exact ⟨rfl, fun hf => absurd hf hok, fun _ => rfl⟩
  | unchecked hok => exact ⟨rfl, fun hf => absurd hf hok, fun _ => rfl⟩
  | rejected _ hok => exact ⟨rfl, fun hf => absurd hf hok, fun _ => rfl⟩
  | done hok => exact ⟨rfl, fun hf => absurd hf hok, fun _ => rfl⟩
  | removing res v hok hok' _ _ _ hrem =>
    rw [hclock, Nat.zero_add] at hok'
    obtain ⟨e, he, hres⟩ := (hleave.resolve_left hok).resolve_left hok'
    refine absurd he (removeCache_not_initCheck (P := P) 0 [] ((P.load w).tick 1) e ?_)
    rw [hrem]
    rcases res with e' | b
    · exact congrArg Except.error (Except.error.inj hres)
    · cases hres

/-- A session that does not get past `init` keeps the meta record exactly if `query_meta` has
returned. -/
theorem visit_kept_iff {Check : Meta ε → Table κ → Prop} {init : Call κ τ ε Unit}
    (hinit : ∀ w, wp init (P.InitEffect Check w) w) {t : Table κ} {row : MetaRow}
    (hmax : 1 ≤ columnUInt64 row.maxSize) (fails : List ℕ) {called : Bool}
    (hleave : called = true → Leaves init (P.construct t (some row) fails)) :
    P.Kept (P.construct t (some row) fails) (P.visit init called (P.construct t (some row) fails))
      ↔ called = true ∧ 0 ∉ fails := by
  have hne := bindMeta_zero_ne (P := P) hmax
  rw [kept_iff, visit_metaRow]
  cases called with
  | false =>
    refine ⟨fun h => absurd (Option.some.inj h) hne, fun h => Bool.noConfusion h.1⟩
  | true =>
    obtain ⟨hrow, hzero, hload⟩ := leaves_metaMem (hinit _) rfl (hleave rfl)
    simp only [if_true, true_and]
    rw [hrow]
    by_cases hf : 0 ∈ fails
    · rw [hzero hf]
      exact ⟨fun h => absurd (Option.some.inj h) hne, fun h => absurd hf h⟩
    · rw [hload hf]
      exact ⟨fun _ => hf, fun _ => congrArg some (bindMeta_columnMeta row)⟩

end Policy

/-- Whatever the database holds, a session of either class that does not get past `init` keeps the
meta record exactly if `init` was called and its first query returned. -/
theorem visit_keeps_meta {row : MetaRow} (hmax : 1 ≤ columnUInt64 row.maxSize) (fails : List ℕ)
    (called : Bool) :
    (∀ t : Lru.Table,
      let w := Lru.policy.construct t (some row) fails
      (called = true → Leaves Lru.init w) →
        (Lru.policy.Kept w (Lru.policy.visit Lru.init called w) ↔ called = true ∧ 0 ∉ fails))
    ∧ ∀ (R : Lfuda.Resolver) (t : Lfuda.Table),
      let w := (Lfuda.policy R).construct t (some row) fails
      (called = true → Leaves (Lfuda.init R) w) →
        ((Lfuda.policy R).Kept w ((Lfuda.policy R).visit (Lfuda.init R) called w)
          ↔ called = true ∧ 0 ∉ fails) :=
  ⟨fun _ hleave => Policy.visit_kept_iff Lru.init_effect hmax fails hleave,
    fun R _ hleave => Policy.visit_kept_iff (Lfuda.init_effect R) hmax fails hleave⟩

/-- `init` finds a row and a `cache_size` of zero, and throws. -/
theorem visit_keeps_meta_ten :
    (let fails : List ℕ := []
      let w := Lru.policy.construct ⟨[⟨[97], 5, 0, [], ⟨1⟩⟩], by decide⟩ (some ⟨0, 10, 1⟩) fails
      Lru.policy.Kept w (Lru.policy.visit Lru.init true w) ↔ true = true ∧ 0 ∉ fails)
    ∧ let fails : List ℕ := []
      let w := (Lfuda.policy .first).construct ⟨[⟨[97], 5, 0, [], ⟨1, 1, 1⟩⟩], by decide⟩
        (some ⟨0, 10, 1⟩) fails
      (Lfuda.policy .first).Kept w ((Lfuda.policy .first).visit (Lfuda.init .first) true w)
        ↔ true = true ∧ 0 ∉ fails :=
  ⟨(visit_keeps_meta (by decide) [] true).1 _ fun _ =>
      .inr (.inr ⟨.initCacheSize, trivial, by decide⟩),
    (visit_keeps_meta (by decide) [] true).2 .first _ fun _ =>
      .inr (.inr ⟨.initCacheSize, trivial, by decide⟩)⟩

/-- Without `init`, and with an `init` whose first query fails, a sound database loses its record,
and the next `init` throws. -/
theorem visit_erases_meta :
    (let fails : List ℕ := [0]
      let w := Lru.policy.construct ⟨[⟨[97], 5, 0, [], ⟨1⟩⟩], by decide⟩ (some ⟨5, 10, 1⟩) fails
      (Lru.policy.visit Lru.init false w).metaRow = some ⟨0, 0, 0⟩
        ∧ (outcome Lru.init w).1 = .error (.sqlite .failed)
        ∧ (Lru.policy.visit Lru.init true w).metaRow = some ⟨0, 0, 0⟩
        ∧ (outcome Lru.init (Lru.policy.reopen (Lru.policy.visit Lru.init true w))).1
          = .error (.algo .initMaxSize))
    ∧ let fails : List ℕ := [0]
      let w := (Lfuda.policy .first).construct ⟨[⟨[97], 5, 0, [], ⟨1, 1, 1⟩⟩], by decide⟩
        (some ⟨5, 10, 1⟩) fails
      ((Lfuda.policy .first).visit (Lfuda.init .first) false w).metaRow = some ⟨0, 0, 0⟩
        ∧ (outcome (Lfuda.init .first) w).1 = .error (.sqlite .failed)
        ∧ ((Lfuda.policy .first).visit (Lfuda.init .first) true w).metaRow = some ⟨0, 0, 0⟩
        ∧ (outcome (Lfuda.init .first) ((Lfuda.policy .first).reopen
            ((Lfuda.policy .first).visit (Lfuda.init .first) true w))).1
          = .error (.algo .initMaxSize) := by
  decide

end XCache
