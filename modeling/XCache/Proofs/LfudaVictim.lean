import XCache.Lib.SignedOrder
import XCache.Proofs.Backends

/-!
# The LFUDA's victim in the program's own order

The program's numbers are unsigned; SQLite stores their bits and sorts them as signed. The row it
picks is the worst in the program's order exactly if, column by column, the rows that are still
tied have their numbers on one side of `2 ^ 63` (`victim_worst_iff`).
-/

namespace XCache

namespace Lfuda

/-- `eff`, `freq`, `timestamp`, `size` in lexicographic order, compared as the program compares
them: `a` comes before `b`, or ties with it. -/
def Precedes (a b : Cache) : Prop :=
  a.fields.eff < b.fields.eff ∨ a.fields.eff = b.fields.eff ∧
    (a.fields.freq < b.fields.freq ∨ a.fields.freq = b.fields.freq ∧
      (a.fields.timestamp < b.fields.timestamp ∨ a.fields.timestamp = b.fields.timestamp ∧
        a.size ≤ b.size))

instance (a b : Cache) : Decidable (Precedes a b) := inferInstanceAs (Decidable (_ ∨ _))

/-- `c` is the worst row of the table, if there are rows. -/
structure Worst (R : Resolver) (t : Table) (c : Cache) : Prop where
  mem : t.rows ≠ [] → c ∈ t.rows.map (policy R).getRow
  least : ∀ r ∈ t.rows, Precedes c ((policy R).getRow r)

/-- The columns of the `ORDER BY`. -/
def sortColumns : List (Row → Int64) :=
  [fun r => r.cols.eff, fun r => r.cols.freq, fun r => r.cols.timestamp, Row.size]

variable (R : Resolver) {t : Table} {r : Row} {w : World}

theorem rank_le_iff {a b : Row} : rank a ≤ rank b ↔ Before Int64.toInt sortColumns a b := by
  simp only [rank, Prod.Lex.toLex_le_toLex, sortColumns, Before, and_true]
  rw [le_iff_lt_or_eq (a := a.size.toInt)]

theorem column_lt_iff {m n : Int64} :
    columnUInt64 m < columnUInt64 n ↔ unsigned m < unsigned n := by
  rw [UInt64.lt_iff_toNat_lt, ← Int.ofNat_lt]
  rfl

theorem column_eq_iff {m n : Int64} :
    columnUInt64 m = columnUInt64 n ↔ unsigned m = unsigned n := by
  rw [← UInt64.toNat_inj, ← Int.ofNat_inj]
  rfl

theorem precedes_iff {a b : Row} :
    Precedes ((policy R).getRow a) ((policy R).getRow b) ↔ Before unsigned sortColumns a b := by
  simp only [sortColumns, Before, and_true, ← column_lt_iff, ← column_eq_iff]
  rw [← UInt64.le_iff_lt_or_eq]
  rfl

/-- What SQLite picks is the worst row exactly if the columns are one-sided where it matters. -/
theorem pick_worst_iff :
    Worst R t ((policy R).getSingle (R.pick t)) ↔ OneSided sortColumns t.rows := by
  rcases hr : R.pick t with _ | r
  · have h0 := R.pick_none hr
    rw [h0]
    refine ⟨fun _ => oneSided_of_nonneg (by simp), fun _ => ⟨fun h => absurd h0 h, ?_⟩⟩
    simp [h0]
  · have hmem := R.pick_mem hr
    have hsigned : ∀ r' ∈ t.rows, Before Int64.toInt sortColumns r r' := fun r' hr' =>
      rank_le_iff.1 (R.pick_le hr r' hr')
    rw [← before_unsigned_iff hmem hsigned]
    refine ⟨fun h r' hr' => (precedes_iff R).1 (h.least r' hr'), fun h => ⟨fun _ => ?_, ?_⟩⟩
    · exact List.mem_map_of_mem hmem
    · exact fun r' hr' => (precedes_iff R).2 (h r' hr')

/-- What both return. -/
def Returns (x : Call Cache) (w : World) : Prop :=
  wp x (fun res _ => res = .ok ((policy R).getSingle (R.pick w.table))) w

theorem queryLfudaWorst_returns (hw : w.clock ∉ w.fails) : Returns R (queryLfudaWorst R) w :=
  wp_readWorld.2 ⟨fun hf => absurd hf hw, fun _ => rfl⟩

theorem deleteLfudaOld_returns (hw : w.clock ∉ w.fails) : Returns R (deleteLfudaOld R) w := by
  refine (policy R).wp_deleteOld.2 ⟨fun hf => absurd hf hw, fun _ => ⟨fun r hr => ?_, fun hr => ?_⟩⟩
  · rw [show R.pick w.table = some r from hr]
    rfl
  · rw [show R.pick w.table = none from hr]
    rfl

/-- However SQLite resolves the ties, and whatever the table holds: the row that `query_lfuda_worst`
and `delete_lfuda_old` return is the worst in the program's order exactly if the columns are
one-sided where it matters. -/
theorem victim_worst_iff (w : World) (hw : w.clock ∉ w.fails) :
    ((∃ c, (outcome (queryLfudaWorst R) w).1 = .ok c ∧ Worst R w.table c)
        ↔ OneSided sortColumns w.table.rows)
      ∧ ((∃ c, (outcome (deleteLfudaOld R) w).1 = .ok c ∧ Worst R w.table c)
        ↔ OneSided sortColumns w.table.rows) := by
  have hquery : (outcome (queryLfudaWorst R) w).1 = _ := queryLfudaWorst_returns R hw
  have hdelete : (outcome (deleteLfudaOld R) w).1 = _ := deleteLfudaOld_returns R hw
  rw [hquery, hdelete, ← pick_worst_iff R]
  simp

/-- The file of the later access is evicted, since its `timestamp` is negative to SQLite. -/
theorem victim_not_worst :
    let w := (run step (start 10) [(.first, .put ⟨[97], 5, 0, [], ⟨9223372036854775808, 0, 0⟩⟩),
      (.first, .put ⟨[98], 5, 0, [], ⟨1, 0, 0⟩⟩)]).2
    let c : Cache := ⟨[97], 5, 0, [], ⟨9223372036854775808, 1, 1⟩⟩
    (outcome (queryLfudaWorst .first) w).1 = .ok c ∧ (outcome (deleteLfudaOld .first) w).1 = .ok c
      ∧ ¬ Worst .first w.table c
      ∧ (step w (.first, .put ⟨[99], 5, 0, [], ⟨2, 0, 0⟩⟩)).2.delivered = [[c]] := by
  refine ⟨by decide, by decide, fun h => ?_, by decide⟩
  have hb := h.least ⟨[98], 5, 0, [], ⟨1, 1, 1⟩⟩ (by decide)
  revert hb
  decide

/-- Two files of the same `eff` and `freq`: the older one is the victim. -/
theorem victim_worst_iff_two :
    let w := (run step (start 10) [(.first, .put ⟨[97], 5, 0, [], ⟨2, 0, 0⟩⟩),
      (.first, .put ⟨[98], 5, 0, [], ⟨1, 0, 0⟩⟩)]).2
    ((∃ c, (outcome (queryLfudaWorst .first) w).1 = .ok c ∧ Worst .first w.table c)
        ↔ OneSided sortColumns w.table.rows)
      ∧ ((∃ c, (outcome (deleteLfudaOld .first) w).1 = .ok c ∧ Worst .first w.table c)
        ↔ OneSided sortColumns w.table.rows) :=
  victim_worst_iff .first _ (by decide)

end Lfuda

end XCache
