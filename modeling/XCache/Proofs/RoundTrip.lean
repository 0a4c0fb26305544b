import XCache.SqliteColumns
import XCache.Proofs.Backends

/-!
# Entries that come back from the database

Numbers go to SQLite as signed integers of the same bits and come back as they were. A key is bound
with its length but read up to its first NUL, and the length of a hash is cast to `int`: an entry
comes back exactly if its key has no NUL and its hash is shorter than `2 ^ 31` bytes
(`roundTrip_iff`).
-/

namespace XCache

variable {κ τ ε α : Type} [Columns κ]

/-- In a world that holds the row of an entry, every statement about that row returns the entry, and
`put` does not take its key for a new one. -/
structure Found (P : Policy κ τ ε) (put : Cache τ → Call κ τ ε Bool) (entry : Cache τ) (r : Row κ)
    (v : World κ τ ε) : Prop where
  query : (outcome (P.querySingle entry.key) v).1 = .ok entry
  deleteSingle : (outcome (P.deleteSingle entry.key) v).1 = .ok entry
  deleteOld : P.worst v.table = some r → (outcome P.deleteOld v).1 = .ok entry
  put : ∀ c : Cache τ, c.key = entry.key → (outcome (put c) v).1 ≠ .ok true

/-- The columns of the stored row return the entry, and an insertion of the entry adds a row by
which it is found ever after. -/
structure RoundTrip (P : Policy κ τ ε) (L : Layout τ) (put : Cache τ → Call κ τ ε Bool)
    (entry : Cache τ) : Prop where
  star : L.read L.created (L.stored entry) = some entry
  returning : L.read L.returned (L.stored entry) = some entry
  later : ∀ w n w', outcome (P.insert entry) w = (.ok n, w') →
    ∃ r, w'.table.rows = w.table.rows ++ [r]
      ∧ ∀ v : World κ τ ε, r ∈ v.table.rows → v.clock ∉ v.fails → Found P put entry r v

section Values

theorem castInt_of_lt {n : ℕ} (h : n < 2 ^ 31) : castInt n = n := by
  unfold castInt
  rw [Int.bmod_def]
  split_ifs <;> omega

theorem castInt_lt (n : ℕ) : castInt n < 2 ^ 31 := by
  unfold castInt
  have := Int.bmod_lt (x := n) (m := 2 ^ 32) (by decide)
  omega

theorem bindText_of_lt {key : Bytes} (h : key.length < 2 ^ 31) : bindText key = key := by
  unfold bindText
  rw [castInt_of_lt h, if_neg (by omega), Int.toNat_natCast, List.take_length]

theorem columnText_eq_iff {key : Bytes} : columnText key = key ↔ 0 ∉ key := by
  unfold columnText
  rw [List.takeWhile_eq_self_iff]
  constructor
  · intro h h0
    simpa using h 0 h0
  · intro h b hb
    rw [decide_eq_true_eq]
    rintro rfl
    exact h hb

theorem bindBlob_eq_iff {hash : Bytes} : bindBlob hash = hash ↔ hash.length < 2 ^ 31 := by
  unfold bindBlob
  constructor
  · intro h
    have hlen := congrArg List.length h
    have hlt := castInt_lt hash.length
    rw [List.length_take] at hlen
    omega
  · intro h
    rw [castInt_of_lt h, Int.toNat_natCast, List.take_length]

end Values

namespace Policy

variable {P : Policy κ τ ε} {entry : Cache τ} {v : World κ τ ε}

/-- What is read of the row that is bound. -/
theorem getRow_bindRow_iff (hk : entry.key.length < 2 ^ 31) :
    P.getRow (P.bindRow entry) = entry ↔ 0 ∉ entry.key ∧ entry.hash.length < 2 ^ 31 := by
  have hkey : (P.getRow (P.bindRow entry)).key = columnText entry.key := by
    rw [getRow, bindRow, bindText_of_lt hk]
  have hsize : (P.getRow (P.bindRow entry)).size = entry.size := UInt64.toUInt64_toInt64 _
  have htime : (P.getRow (P.bindRow entry)).downloadTime = entry.downloadTime :=
    UInt64.toUInt64_toInt64 _
  have hhash : (P.getRow (P.bindRow entry)).hash = bindBlob entry.hash := by
    rw [getRow, bindRow, columnBlob]
  have hfields : (P.getRow (P.bindRow entry)).fields = entry.fields := P.column_bindCols _
  rw [Cache.ext_iff, hkey, hhash, columnText_eq_iff, bindBlob_eq_iff]
  exact ⟨fun h => ⟨h.1, h.2.2.2.1⟩, fun h => ⟨h.1, hsize, htime, h.2, hfields⟩⟩

theorem find_bindRow (hr : P.bindRow entry ∈ v.table.rows) :
    v.table.find (bindText entry.key) = some (P.bindRow entry) :=
  Table.find_some.2 ⟨hr, by rw [bindRow]⟩

theorem querySingle_bindRow (hr : P.bindRow entry ∈ v.table.rows) (hv : v.clock ∉ v.fails) :
    wp (P.querySingle entry.key) (fun res _ => res = .ok (P.getRow (P.bindRow entry))) v := by
  refine wp_querySingle.2 ⟨fun hf => absurd hf hv, fun _ => ?_⟩
  rw [find_bindRow hr]
  rfl

theorem deleteSingle_bindRow (hr : P.bindRow entry ∈ v.table.rows) (hv : v.clock ∉ v.fails) :
    wp (P.deleteSingle entry.key) (fun res _ => res = .ok (P.getRow (P.bindRow entry))) v := by
  refine wp_statement.2 ⟨fun hf => absurd hf hv, fun _ => ?_⟩
  show Except.ok (P.getSingle (v.table.find (bindText entry.key))) = _
  rw [find_bindRow hr]
  rfl

theorem deleteOld_worst {r : Row κ} (hr : P.worst v.table = some r) (hv : v.clock ∉ v.fails) :
    wp P.deleteOld (fun res _ => res = .ok (P.getRow r)) v := by
  refine P.wp_deleteOld.2 ⟨fun hf => absurd hf hv, fun _ => ⟨fun r' hr' => ?_, fun hn => ?_⟩⟩
  · rw [hr] at hr'
    cases hr'
    rfl
  · rw [hr] at hn
    cases hn

end Policy

theorem Algo.put_found (A : Algo κ τ ε α) {c : Cache τ} {v : World κ τ ε} {r : Row κ}
    (hr : v.table.find (bindText c.key) = some r) (hk : columnText r.key ≠ []) :
    wp (A.put c) (fun res _ => res ≠ .ok true) v := by
  unfold Algo.put
  rw [wp_bind, wp_throwIf]
  refine ⟨fun _ => by simp, fun _ => ?_⟩
  simp only []
  rw [wp_bind, wp_get]
  simp only []
  rw [wp_bind, wp_throwIf]
  refine ⟨fun _ => by simp, fun _ => ?_⟩
  simp only []
  rw [wp_bind, Policy.wp_querySingle]
  refine ⟨fun _ => by simp, fun _ => ?_⟩
  simp only []
  rw [hr, wp_ite]
  refine ⟨fun h => absurd h hk, fun _ => ?_⟩
  refine wp_bind.2 (wp_of_forall ?_)
  rintro (e | renewed) v'
  · simp
  refine wp_bind.2 (wp_throwIf.2 ⟨fun _ => by simp, fun _ => wp_ite.2 ⟨fun _ => ?_, fun _ => ?_⟩⟩)
  · refine wp_bind.2 (wp_of_forall ?_)
    rintro (e | u) v''
    · simp
    · simp [wp_pure]
  · simp [wp_pure]

/-! ## The two classes -/

section Classes

variable {A : Algo κ τ ε α} {L : Layout τ} {entry : Cache τ}

/-- An entry that is read as it is bound is found wherever its row is. -/
theorem found_of_getRow (hrow : A.getRow (A.bindRow entry) = entry) (hne : entry.key ≠ [])
    {v : World κ τ ε} (hr : A.bindRow entry ∈ v.table.rows) (hv : v.clock ∉ v.fails) :
    Found A.toPolicy A.put entry (A.bindRow entry) v where
  query := (Policy.querySingle_bindRow hr hv).trans (congrArg Except.ok hrow)
  deleteSingle := (Policy.deleteSingle_bindRow hr hv).trans (congrArg Except.ok hrow)
  deleteOld h := (Policy.deleteOld_worst h hv).trans (congrArg Except.ok hrow)
  put c hc := by
    have hkey : columnText (A.bindRow entry).key = entry.key := by
      rw [← congrArg Cache.key hrow, Policy.getRow]
    refine A.put_found (r := A.bindRow entry) ?_ (hkey ▸ hne)
    rw [hc]
    exact Policy.find_bindRow hr

theorem insert_bindRow {P : Policy κ τ ε} (w : World κ τ ε) :
    wp (P.insert entry) (fun res w' => ∀ n, res = .ok n →
      w'.table.rows = w.table.rows ++ [P.bindRow entry]) w := by
  refine wp_writeTable.2 ⟨fun _ _ => nofun, fun _ => ⟨fun t ht _ _ => ?_, fun _ _ => nofun⟩⟩
  exact Table.insert_rows ht

theorem roundTrip_of_getRow
    (hL : L.read L.created (L.stored entry) = some (A.getRow (A.bindRow entry))
      ∧ L.read L.returned (L.stored entry) = some (A.getRow (A.bindRow entry)))
    (hne : entry.key ≠ []) :
    RoundTrip A.toPolicy L A.put entry ↔ A.getRow (A.bindRow entry) = entry := by
  constructor
  · intro h
    have hstar := h.star
    rw [hL.1] at hstar
    exact Option.some.inj hstar
  · intro hrow
    rw [hrow] at hL
    refine ⟨hL.1, hL.2, fun w n w' hins => ⟨A.bindRow entry, ?_, fun v hr hv => ?_⟩⟩
    · have h : wp (A.insert entry) (fun res w' => ∀ n, res = .ok n →
          w'.table.rows = w.table.rows ++ [A.bindRow entry]) w := insert_bindRow w
      unfold wp at h
      rw [hins] at h
      exact h n rfl
    · exact found_of_getRow hrow hne hr hv

end Classes

/-- In both classes, an entry comes back from the database exactly if its key has no NUL and its
hash is shorter than `2 ^ 31` bytes. -/
theorem roundTrip_iff {key : Bytes} (hne : key ≠ []) (hlen : key.length < 2 ^ 31)
    (size downloadTime : UInt64) (hash : Bytes) :
    (∀ fields, RoundTrip Lru.policy Lru.layout Lru.put ⟨key, size, downloadTime, hash, fields⟩
      ↔ 0 ∉ key ∧ hash.length < 2 ^ 31)
    ∧ ∀ R fields, RoundTrip (Lfuda.policy R) Lfuda.layout (Lfuda.put R)
        ⟨key, size, downloadTime, hash, fields⟩
      ↔ 0 ∉ key ∧ hash.length < 2 ^ 31 := by
  constructor
  · intro fields
    exact (roundTrip_of_getRow (A := Lru.algo) (Lru.layout_read _) hne).trans
      (Policy.getRow_bindRow_iff hlen)
  · intro R fields
    exact (roundTrip_of_getRow (A := Lfuda.algo R) (Lfuda.layout_read R _) hne).trans
      (Policy.getRow_bindRow_iff hlen)

/-- A key of two bytes, and numbers with the sign bit set. -/
theorem roundTrip_iff_two :
    (∀ fields, RoundTrip Lru.policy Lru.layout Lru.put
        ⟨[97, 98], 9223372036854775808, 18446744073709551615, [0, 1], fields⟩
      ↔ (0 : UInt8) ∉ [97, 98] ∧ [(0 : UInt8), 1].length < 2 ^ 31)
    ∧ ∀ R fields, RoundTrip (Lfuda.policy R) Lfuda.layout (Lfuda.put R)
        ⟨[97, 98], 9223372036854775808, 18446744073709551615, [0, 1], fields⟩
      ↔ (0 : UInt8) ∉ [97, 98] ∧ [(0 : UInt8), 1].length < 2 ^ 31 :=
  roundTrip_iff (by decide) (by decide) _ _ _

/-- A key with a NUL in the middle comes back as what stands before it. A second `put` finds the
row, renews another key and gives up. -/
theorem nul_key_lost :
    (¬ RoundTrip Lru.policy Lru.layout Lru.put ⟨[97, 0, 98], 4, 0, [], ⟨1⟩⟩
      ∧ (run Lru.step (Lru.start 10) [.put ⟨[97, 0, 98], 4, 0, [], ⟨0⟩⟩,
          .put ⟨[97, 0, 98], 4, 0, [], ⟨0⟩⟩]).1
        = [.ok (.bool true), .error (.algo .fatalLogic)])
    ∧ ¬ RoundTrip (Lfuda.policy .first) Lfuda.layout (Lfuda.put .first)
        ⟨[97, 0, 98], 4, 0, [], ⟨1, 1, 1⟩⟩
      ∧ (run Lfuda.step (Lfuda.start 10) [(.first, .put ⟨[97, 0, 98], 4, 0, [], ⟨1, 0, 0⟩⟩),
          (.first, .put ⟨[97, 0, 98], 4, 0, [], ⟨1, 0, 0⟩⟩)]).1
        = [.ok (.bool true), .error (.algo .fatalLogic)] := by
  refine ⟨⟨fun h => absurd h.star ?_, by decide⟩, fun h => absurd h.star ?_, by decide⟩
  · decide
  · decide

end XCache
