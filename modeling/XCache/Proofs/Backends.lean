import XCache.SqliteLru
import XCache.SqliteLfuda
import XCache.Proofs.Effects

/-!
# The two classes are cache algorithms

`Lru.algo` and `Lfuda.algo` collect what the two classes write in `put` and `renew`; the calls of
the classes are the calls of these algorithms (`Lru.call_eq`, `Lfuda.call_eq`), so what is shown
for every `Algo` holds of both.
-/

namespace XCache

namespace Lru

theorem renew_effect {w : World} (key : Bytes) (a : Unit) :
    wp (renew key)
      (RenewEffect (fun x _ _ => ⟨x + 1⟩) (fun x => x + 1) 1 w key a) w := by
  unfold renew
  rw [wp_bind, wp_throwIf]
  refine ⟨fun hk => .nullKey hk, fun hk => ?_⟩
  simp only []
  rw [wp_bind, wp_get]
  simp only []
  rw [wp_bind, updateLruSeq, wp_writeTable]
  refine ⟨fun hfail => .failed 0 one_pos hfail, fun _ => ⟨fun t ht => ?_, fun hn => ?_⟩⟩
  · simp only []
    rw [wp_ite]
    constructor
    · intro hc
      rw [wp_bind, wp_modify]
      exact .renewed t hk (Table.count_pos.1 hc) ht
    · intro hc
      have hmem := Table.count_eq_zero.1 (not_not.1 hc)
      rw [Table.update_of_not_mem hmem] at ht
      cases ht
      exact .missing hk hmem
  · refine .conflict hk ?_ hn
    by_contra hmem
    rw [Table.update_of_not_mem hmem] at hn
    cases hn

/-- What the LRU writes in `put` and `renew`. -/
def algo : Algo LruCols LruCols Int64 Unit where
  toPolicy := policy
  stamp x _ := ⟨x + 1⟩
  inserted x := x + 1
  arg _ := ()
  renew key _ := renew key
  touch x _ _ := ⟨x + 1⟩
  touched x := x + 1
  insertCount x := x.toInt + 1
  renewCount x _ := x.toInt + 1
  cost := 1
  renew_effect key a _ := renew_effect key a

theorem put_eq (c : Cache) : put c = algo.put c := rfl

theorem call_eq (op : Op) : call op = algo.call op := by
  cases op <;> rfl

theorem step_course {w : World} (hw : w.table.Keyed) (op : Op) :
    algo.Course w op (step w op).1 (step w op).2 := by
  rw [step, call_eq]
  exact algo.call_course (fun _ => renew_effect) hw op

end Lru

namespace Lfuda

variable (R : Resolver)

/-- The columns a renewal at `ts` leaves, when `global_aging` is `x`. -/
def touch (x : UInt64) (ts : UInt64) (c : LfudaCols) : LfudaCols :=
  bindTfe
    { timestamp := if columnUInt64 c.timestamp > ts then columnUInt64 c.timestamp else ts
      freq := columnUInt64 c.freq + 1
      eff := columnUInt64 c.freq + 1 + x }

/-- What `query_lfuda_time` returns: an empty key exactly if there is no row. -/
theorem getTime_cases {t : Table} (ht : t.Keyed) (key : Bytes) :
    ((getTime (t.find key)).1 = [] ∧ key ∉ t.keys)
      ∨ ∃ r ∈ t.rows, r.key = key ∧ (getTime (t.find key)).1 ≠ []
        ∧ (getTime (t.find key)).2 = columnTfe r.cols := by
  rcases hf : t.find key with _ | r
  · exact .inl ⟨rfl, Table.find_none.1 hf⟩
  · obtain ⟨hr, hk⟩ := Table.find_some.1 hf
    refine .inr ⟨r, hr, hk, ?_, rfl⟩
    show columnText r.key ≠ []
    rw [columnText_exact (ht.exact r hr)]
    exact ht.nonempty r hr

/-- An update writes to the one row its key selects. -/
theorem update_congr {t : Table} {r : Row} (hr : r ∈ t.rows) {f g : Row → Row} (hfg : f r = g r) :
    t.update r.key f = t.update r.key g := by
  unfold Table.update
  congr 1
  refine List.map_congr_left fun r' hr' => ?_
  split_ifs with h
  · rw [Table.eq_of_key hr' hr h, hfg]
  · rfl

theorem renew_keyed {w : World} (key : Bytes) (ts : UInt64) (hw : w.table.Keyed) :
    wp (renew key ts) (RenewEffect touch (fun x => x) 2 w key ts) w := by
  unfold renew
  rw [wp_bind, wp_throwIf]
  refine ⟨fun hk => .nullKey hk, fun hk => ?_⟩
  simp only []
  rw [wp_bind, queryLfudaTime, wp_readWorld]
  refine ⟨fun hfail => .failed 0 two_pos hfail, fun _ => ?_⟩
  simp only []
  rw [wp_ite]
  rcases getTime_cases (t := (w.tick 1).table) hw (bindText key) with
    ⟨h0, hmem⟩ | ⟨r, hr, hrk, hne, htfe⟩
  · exact ⟨fun h => absurd h0 h, fun _ => .missing hk hmem⟩
  have hmem : bindText key ∈ w.table.keys := Table.mem_keys.2 ⟨r, hr, hrk⟩
  refine ⟨fun _ => ?_, fun h => absurd (not_not.1 h) hne⟩
  rw [wp_bind, wp_get]
  simp only []
  rw [wp_bind, updateLfudaTfe, wp_writeTable, htfe]
  refine ⟨fun hfail => .failed 1 one_lt_two hfail, fun _ => ⟨fun t ht => ?_, fun hn => ?_⟩⟩
  · simp only []
    rw [wp_bind, wp_throwIf]
    refine ⟨fun h0 => absurd hmem (Table.count_eq_zero.1 h0), fun _ => ?_⟩
    -- the row the query found is the only one the statement writes to
    refine .renewed t hk hmem (Eq.trans ?_ ht)
    rw [← hrk]
    exact update_congr hr rfl
  · refine .conflict hk hmem (Eq.trans ?_ hn)
    rw [← hrk]
    exact update_congr hr rfl

theorem renew_effect {w : World} (key : Bytes) (ts : UInt64) (hw : w.table.Plain) :
    wp (renew key ts) (RenewEffect touch (fun x => x) 2 w key ts) w :=
  renew_keyed key ts hw.keyed

/-- What the LFUDA writes in `put` and `renew`. -/
def algo : Algo LfudaCols Tfe UInt64 UInt64 where
  toPolicy := policy R
  stamp x f := { f with freq := 1, eff := x + 1 }
  inserted x := x
  arg c := c.fields.timestamp
  renew := renew
  touch := touch
  touched x := x
  insertCount x := x.toNat + 1
  renewCount x c := (columnUInt64 c.freq).toNat + 1 + x.toNat
  cost := 2
  renew_effect key ts hw := renew_effect key ts hw

theorem put_eq (c : Cache) : put R c = (algo R).put c := rfl

theorem call_eq (op : Op) : call R op = (algo R).call op := by
  cases op <;> rfl

theorem step_course {w : World} (hw : w.table.Keyed) (i : Resolver × Op) :
    (algo i.1).Course w i.2 (step w i).1 (step w i).2 := by
  rw [step, call_eq]
  exact (algo i.1).call_course (fun _ key ts => renew_keyed key ts hw) hw i.2

end Lfuda

end XCache
