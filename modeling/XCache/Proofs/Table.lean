import XCache.Sqlite

/-!
# Tables

What a statement does to the rows of a table, in terms of the one row its key selects: the rest of
the table is the table without that row (`delete_perm`, `update_perm`).
-/

namespace XCache

variable {κ : Type} [Columns κ]

namespace Table

variable {t t' : Table κ} {key : Bytes} {r r' : Row κ} {f : Row κ → Row κ}

theorem keys_nodup (t : Table κ) : t.keys.Nodup := by
  rw [keys, List.Nodup, List.pairwise_map]
  exact t.unique.imp fun h => h.1

theorem mem_keys : key ∈ t.keys ↔ ∃ r ∈ t.rows, r.key = key := by
  simp [keys]

theorem eq_of_key (h : r ∈ t.rows) (h' : r' ∈ t.rows) (hk : r.key = r'.key) : r = r' :=
  List.inj_on_of_nodup_map t.keys_nodup h h' hk

theorem find_some : t.find key = some r ↔ r ∈ t.rows ∧ r.key = key := by
  constructor
  · intro h
    exact ⟨List.mem_of_find?_eq_some h, by simpa using List.find?_some h⟩
  · rintro ⟨hr, hk⟩
    rcases hf : t.find key with _ | r'
    · exact absurd hk (by simpa using List.find?_eq_none.1 hf r hr)
    · have hr' : r'.key = key := by simpa using List.find?_some hf
      rw [eq_of_key (List.mem_of_find?_eq_some hf) hr (hr'.trans hk.symm)]

theorem find_none : t.find key = none ↔ key ∉ t.keys := by
  rw [find, List.find?_eq_none, mem_keys]
  simp

theorem count_eq_zero : t.count key = 0 ↔ key ∉ t.keys := by
  rw [count, List.countP_eq_zero, mem_keys]
  simp

theorem count_pos : t.count key ≠ 0 ↔ key ∈ t.keys := by
  rw [Ne, count_eq_zero, not_not]

/-! ## Statements -/

theorem commit_rows {rows : List (Row κ)} (h : commit rows = some t) : t.rows = rows := by
  unfold commit at h
  split_ifs at h
  cases h
  rfl

theorem commit_isSome {rows : List (Row κ)} (h : rows.Pairwise Row.Distinct) :
    ∃ t : Table κ, commit rows = some t := by
  unfold commit
  rw [dif_pos h]
  exact ⟨_, rfl⟩

theorem insert_rows {row : Row κ} (h : t.insert row = some t') : t'.rows = t.rows ++ [row] :=
  commit_rows h

theorem update_rows (h : t.update key f = some t') :
    t'.rows = t.rows.map fun r => if r.key = key then f r else r :=
  commit_rows h

theorem insert_isSome {row : Row κ} (hk : row.key ∉ t.keys)
    (hc : ∀ r ∈ t.rows, ¬ Columns.Clash r.cols row.cols) : ∃ t', t.insert row = some t' := by
  refine commit_isSome (List.pairwise_append.2 ⟨t.unique, List.pairwise_singleton _ _, ?_⟩)
  intro r hr r' hr'
  rw [List.mem_singleton] at hr'
  subst hr'
  exact ⟨fun h => hk (mem_keys.2 ⟨r, hr, h⟩), hc r hr⟩

/-- An update that keeps keys and policy columns breaks no constraint. -/
theorem update_isSome (t : Table κ) (key : Bytes) (hk : ∀ r, (f r).key = r.key)
    (hc : ∀ r, (f r).cols = r.cols) :
    ∃ t', t.update key f = some t' := by
  refine commit_isSome (List.pairwise_map.2 (t.unique.imp fun {a b} h => ?_))
  have hd : ∀ r : Row κ, (if r.key = key then f r else r).key = r.key
      ∧ (if r.key = key then f r else r).cols = r.cols := by
    intro r
    split_ifs
    · exact ⟨hk r, hc r⟩
    · exact ⟨rfl, rfl⟩
  rw [Row.Distinct, (hd a).1, (hd a).2, (hd b).1, (hd b).2]
  exact h

/-- An update of a key that is not there changes nothing. -/
theorem update_of_not_mem (h : key ∉ t.keys) (f : Row κ → Row κ) : t.update key f = some t := by
  have hsame : (t.rows.map fun r => if r.key = key then f r else r) = t.rows := by
    conv_rhs => rw [← List.map_id t.rows]
    refine List.map_congr_left fun r hr => ?_
    rw [if_neg fun hk => h (mem_keys.2 ⟨r, hr, hk⟩)]
    rfl
  rw [update, commit, dif_pos (hsame.symm ▸ t.unique)]
  exact congrArg some (Table.ext hsame)

@[simp] theorem delete_rows : (t.delete key).rows = t.rows.filter fun r => r.key ≠ key := rfl

theorem mem_delete : r ∈ (t.delete key).rows ↔ r ∈ t.rows ∧ r.key ≠ key := by
  simp

theorem delete_subset (h : r ∈ (t.delete key).rows) : r ∈ t.rows := (mem_delete.1 h).1

/-- A table is the row a key selects and the table without it. -/
theorem delete_perm (h : r ∈ t.rows) : t.rows.Perm (r :: (t.delete r.key).rows) := by
  have hone : t.rows.filter (fun r' => r'.key = r.key) = [r] := by
    have hsub : ∀ r' ∈ t.rows.filter (fun r' => r'.key = r.key), r' = r := by
      intro r' h'
      rw [List.mem_filter, decide_eq_true_eq] at h'
      exact eq_of_key h'.1 h h'.2
    have hmem : r ∈ t.rows.filter (fun r' => r'.key = r.key) := by simp [h]
    have hnd : (t.rows.filter (fun r' => r'.key = r.key)).Nodup :=
      (List.Nodup.of_map _ t.keys_nodup).filter _
    rw [List.eq_replicate_of_mem hsub] at hnd hmem ⊢
    have h1 := List.nodup_replicate.1 hnd
    have h2 : 0 < (t.rows.filter (fun r' => r'.key = r.key)).length := by
      rw [List.mem_replicate] at hmem
      omega
    rw [show (t.rows.filter (fun r' => r'.key = r.key)).length = 1 by omega]
    rfl
  have := List.filter_append_perm (fun r' => decide (r'.key = r.key)) t.rows
  rw [hone] at this
  refine this.symm.trans (List.Perm.of_eq ?_)
  rw [List.singleton_append, delete_rows]
  congr 2
  funext r'
  simp

theorem delete_length (h : r ∈ t.rows) : (t.delete r.key).rows.length + 1 = t.rows.length := by
  rw [(delete_perm h).length_eq, List.length_cons]

theorem delete_sum (g : Row κ → ℕ) (h : r ∈ t.rows) :
    (t.rows.map g).sum = g r + ((t.delete r.key).rows.map g).sum := by
  rw [((delete_perm h).map g).sum_eq, List.map_cons, List.sum_cons]

theorem mem_update (h : t.update key f = some t') :
    r ∈ t'.rows ↔ ∃ r' ∈ t.rows, (if r'.key = key then f r' else r') = r := by
  rw [update_rows h, List.mem_map]

/-- An update replaces the row its key selects. -/
theorem update_perm (h : t.update r.key f = some t') (hr : r ∈ t.rows) :
    t'.rows.Perm (f r :: (t.delete r.key).rows) := by
  rw [update_rows h]
  refine ((delete_perm hr).map _).trans (List.Perm.of_eq ?_)
  rw [List.map_cons, if_pos rfl]
  congr 1
  conv_rhs => rw [← List.map_id (t.delete r.key).rows]
  refine List.map_congr_left fun r' h' => ?_
  rw [if_neg (mem_delete.1 h').2]
  rfl

theorem update_sum (g : Row κ → ℕ) (h : t.update r.key f = some t') (hr : r ∈ t.rows) :
    (t'.rows.map g).sum + g r = (t.rows.map g).sum + g (f r) := by
  rw [((update_perm h hr).map g).sum_eq, delete_sum g hr, List.map_cons, List.sum_cons]
  omega

theorem update_keys (hk : ∀ r, (f r).key = r.key) (h : t.update key f = some t') :
    t'.keys = t.keys := by
  rw [keys, keys, update_rows h, List.map_map]
  refine List.map_congr_left fun r _ => ?_
  rw [Function.comp_apply]
  split_ifs
  · exact hk r
  · rfl

end Table

end XCache
