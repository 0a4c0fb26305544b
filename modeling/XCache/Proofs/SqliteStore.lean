import XCache.SqliteStore
import XCache.Proofs.SqliteBase

/-!
# What an interrupted first session leaves

A database is new when its file is not there, and `open` creates the file before the first table is
created: what the first session does not get to, no session does after it (`Stage`). The statements
that check for the tables are executed without a look at their rows, so that a store without its
meta table is noticed by `query_meta`, and one with the table and no row in it by nobody. Otherwise
a session loads what the last `update_meta` before it has written (`store_loads`).
-/

namespace XCache

namespace SqliteStore

open SqliteBase

variable {μ : Type} {n : Names} {zero : μ} {stop : ℕ}

section Steps

variable {α β : Type} {c : Connection (Schema μ) (String ⊕ μ)} {d : Schema μ}

/-- The program ends so, and leaves the database so. -/
def Ends (x : Program μ α) (c : Connection (Schema μ) (String ⊕ μ)) (r : Except SqlError α)
    (d : Schema μ) : Prop :=
  (outcome x c).1 = r ∧ (outcome x c).2.db = d

theorem Ends.then_ok {x : Program μ α} {f : α → Program μ β} {a : α} {r : Except SqlError β}
    {d' : Schema μ} (hx : Ends x c (.ok a) d) (hf : Ends (f a) (outcome x c).2 r d') :
    Ends (x >>= f) c r d' := by
  have hout : outcome x c = (.ok a, (outcome x c).2) := Prod.ext hx.1 rfl
  unfold Ends
  rw [outcome_bind_ok hout]
  exact hf

theorem Ends.then_error {x : Program μ α} {f : α → Program μ β} {e : SqlError}
    (hx : Ends x c (.error e) d) : Ends (x >>= f) c (.error e) d := by
  have hout : outcome x c = (.error e, (outcome x c).2) := Prod.ext hx.1 rfl
  unfold Ends
  rw [outcome_bind_error hout]
  exact ⟨rfl, hx.2⟩

theorem ends_pure (a : α) : Ends (pure a) c (.ok a) c.db := ⟨rfl, rfl⟩

variable {i : ℕ} {sql : Text μ} {statement : Master μ}

theorem attempt_cut (h : stop ≤ i) (d : Schema μ) :
    attempt stop i sql d = some fun d => ⟨[], false, d, true⟩ := if_pos h

theorem attempt_made (h : i < stop) (d : Schema μ) : attempt stop i sql d = sql d :=
  if_neg (Nat.not_le.2 h)

theorem exec_eq (c : Connection (Schema μ) (String ⊕ μ)) :
    outcome (exec stop i sql) c
      = outcome (executeSimple (fun _ => 0) (attempt stop i sql c.db) >>= fun _ => pure ()) c :=
  outcome_bind_ok rfl _

theorem execBound_eq (c : Connection (Schema μ) (String ⊕ μ)) :
    outcome (execBound stop i sql) c
      = outcome (execute (fun _ => 0) (attempt stop i sql c.db) >>= fun _ => pure ()) c :=
  outcome_bind_ok rfl _

theorem exec_cut (h : stop ≤ i) : Ends (exec stop i sql) c (.error .simple) c.db := by
  unfold Ends
  rw [exec_eq, attempt_cut h, outcome_bind_error (outcome_executeSimple c _)]
  exact ⟨rfl, rfl⟩

theorem exec_none (hsql : sql c.db = none) :
    Ends (exec stop i sql) c (.error .simple) c.db := by
  by_cases h : stop ≤ i
  · exact exec_cut h
  · unfold Ends
    rw [exec_eq, attempt_made (Nat.not_le.1 h), hsql]
    exact ⟨rfl, rfl⟩

theorem exec_made (h : i < stop) (hsql : sql c.db = some statement)
    (hdone : (statement c.db).done = true) :
    Ends (exec stop i sql) c (.ok ()) (statement c.db).db := by
  have hout : outcome (executeSimple (fun _ => 0) (some statement)) c = _ :=
    outcome_executeSimple c statement
  rw [if_pos hdone] at hout
  unfold Ends
  rw [exec_eq, attempt_made h, hsql, outcome_bind_ok hout]
  exact ⟨rfl, rfl⟩

theorem execBound_cut (h : stop ≤ i) :
    Ends (execBound stop i sql) c (.error .execute) c.db := by
  unfold Ends
  rw [execBound_eq, attempt_cut h, outcome_bind_error (outcome_execute c _)]
  exact ⟨rfl, rfl⟩

theorem execBound_made (h : i < stop) (hsql : sql c.db = some statement)
    (hdone : (statement c.db).done = true) :
    Ends (execBound stop i sql) c (.ok ()) (statement c.db).db := by
  have hout : outcome (execute (fun _ => 0) (some statement)) c = _ := outcome_execute c statement
  rw [finished, if_pos hdone] at hout
  unfold Ends
  rw [execBound_eq, attempt_made h, hsql, outcome_bind_ok hout]
  exact ⟨rfl, rfl⟩

end Steps

/-! ## The statements -/

/-- How far the first session has got, and the meta row. -/
structure Stage (n : Names) (k : ℕ) (row : Option μ) (d : Schema μ) : Prop where
  cacheTable : n.cacheTable ∈ d.tables ↔ 1 ≤ k
  metaTable : n.metaTable ∈ d.tables ↔ 2 ≤ k
  metaRows : d.metaRows = row.toList
  created : row.isSome → 2 ≤ k

variable {k : ℕ} {row : Option μ} {d : Schema μ} {c : Connection (Schema μ) (String ⊕ μ)}

theorem Stage.onMeta (h : Stage n k row d) (hk : 2 ≤ k) (statement : Master μ) :
    onMeta n statement d = some statement := if_pos (h.metaTable.2 hk)

theorem check_ends (stop i : ℕ) (name : String) (c : Connection (Schema μ) (String ⊕ μ)) :
    Ends (exec stop i (checkTable name)) c (if stop ≤ i then .error .simple else .ok ()) c.db := by
  split
  · exact exec_cut (by assumption)
  · rename_i h
    have hsql : checkTable name c.db
        = some fun d => ⟨(d.tables.filter (· = name)).map .inl, true, d, true⟩ := rfl
    exact exec_made (Nat.not_le.1 h) hsql rfl

/-- The index is created where the cache table is there. -/
theorem index_ends (h : Stage n k row c.db) :
    ∃ r d', Ends (exec stop 2 (createIndex n)) c r d' ∧ Stage n k row d'
      ∧ (r = .ok () ∧ 2 < stop ∧ 1 ≤ k ∨ r = .error .simple ∧ (stop ≤ 2 ∨ k = 0)) := by
  by_cases hstop : stop ≤ 2
  · exact ⟨_, _, exec_cut hstop, h, .inr ⟨rfl, .inl hstop⟩⟩
  by_cases hk : 1 ≤ k
  · refine ⟨_, _, exec_made (Nat.not_le.1 hstop) (if_pos (h.cacheTable.2 hk)) rfl, ?_,
      .inl ⟨rfl, Nat.not_le.1 hstop, hk⟩⟩
    dsimp only
    split
    · exact h
    · exact ⟨h.cacheTable, h.metaTable, h.metaRows, h.created⟩
  · refine ⟨_, _, exec_none (if_neg fun hmem => hk (h.cacheTable.1 hmem)), h,
      .inr ⟨rfl, .inr ?_⟩⟩
    omega

/-- What `query_meta` finds. -/
def loads (zero : μ) (k : ℕ) (row : Option μ) : Except SqlError μ :=
  if k < 2 then .error .prepare else .ok (row.getD zero)

theorem query_ends (zero : μ) (stop : ℕ) (h : Stage n k row c.db) :
    Ends (query n zero stop) c (if stop ≤ 4 then .error .execute else loads zero k row) c.db := by
  have hget : outcome (query n zero stop) c
      = outcome (querySingle zero (Sum.elim (fun _ => zero) id)
          (attempt stop 4 (onMeta n queryMeta) c.db)) c := outcome_bind_ok rfl _
  unfold Ends
  rw [hget]
  split
  · rename_i hstop
    rw [attempt_cut hstop, outcome_querySingle]
    exact ⟨rfl, rfl⟩
  · rename_i hstop
    rw [attempt_made (Nat.not_le.1 hstop)]
    by_cases hk : 2 ≤ k
    · rw [h.onMeta hk, outcome_querySingle, loads, if_neg (Nat.not_lt.2 hk)]
      have hrows := h.metaRows
      rcases row with _ | m
      · simp [single, queryMeta, hrows, second, Connection.after]
      · simp [single, queryMeta, hrows, second, Connection.after]
    · have hnone : SqliteStore.onMeta n queryMeta c.db = none :=
        if_neg fun hmem => hk (h.metaTable.1 hmem)
      rw [hnone, loads, if_pos (Nat.not_le.1 hk)]
      exact ⟨rfl, rfl⟩

/-- The row after some of the updates. -/
def updated (row : Option μ) (ms : List μ) : Option μ := row.map ms.getLastD

theorem updated_nil (row : Option μ) : updated row [] = row := by
  cases row <;> rfl

theorem updated_cons (row : Option μ) (m : μ) (ms : List μ) :
    updated (row.map fun _ => m) ms = updated row (m :: ms) := by
  cases row with
  | none => rfl
  | some x => exact congrArg some List.getLastD_cons.symm

theorem updated_append (row : Option μ) (ms ms' : List μ) :
    updated (updated row ms) ms' = updated row (ms ++ ms') := by
  cases row with
  | none => rfl
  | some x => simp [updated, List.getLast?_append, Option.getD_or]

theorem updateAll_ends : ∀ (ms : List μ) (i : ℕ) {row : Option μ}
    {c : Connection (Schema μ) (String ⊕ μ)}, Stage n k row c.db → 2 ≤ k →
    ∃ r d', Ends (updateAll n stop i ms) c r d' ∧ Stage n k (updated row (ms.take (stop - i))) d'
      ∧ (i + ms.length ≤ stop → r = .ok ())
  | [], i, row, c, h, _ => by
    refine ⟨_, _, ends_pure (), ?_, fun _ => rfl⟩
    rw [List.take_nil, updated_nil]
    exact h
  | m :: ms, i, row, c, h, hk => by
    by_cases hstop : stop ≤ i
    · refine ⟨_, _, (execBound_cut hstop).then_error, ?_, fun hle => ?_⟩
      · rw [Nat.sub_eq_zero_of_le hstop, List.take_zero, updated_nil]
        exact h
      · rw [List.length_cons] at hle
        omega
    · have hlt : i < stop := Nat.not_le.1 hstop
      have hone : Stage n k (row.map fun _ => m) (updateMeta m c.db).db := by
        refine ⟨h.cacheTable, h.metaTable, ?_, fun hsome => h.created (by simpa using hsome)⟩
        show c.db.metaRows.map _ = _
        rw [h.metaRows]
        cases row <;> rfl
      have hmade : Ends (execBound stop i (SqliteStore.onMeta n (updateMeta m))) c (.ok ())
          (updateMeta m c.db).db := execBound_made hlt (h.onMeta hk _) rfl
      rw [← hmade.2] at hone
      obtain ⟨r, d', hends, hstage, hret⟩ := updateAll_ends ms (i + 1) hone hk
      have hlength : i + (m :: ms).length ≤ stop → i + 1 + ms.length ≤ stop := by
        rw [List.length_cons]
        omega
      refine ⟨r, d', hmade.then_ok hends, ?_, fun hle => hret (hlength hle)⟩
      rwa [updated_cons, ← List.take_succ_cons, show stop - (i + 1) + 1 = stop - i by omega]
        at hstage

/-! ## The sessions -/

/-- The rows a session updates the meta row to, before it is cut short. -/
def Session.updated (s : Session μ) : List μ := s.updates.take (s.stop - 5)

theorem rest_ends (zero : μ) (s : Session μ) (h : Stage n k row c.db) :
    ∃ r d', Ends (do
        let m ← query n zero s.stop
        updateAll n s.stop 5 s.updates
        return m) c r d'
      ∧ Stage n k (SqliteStore.updated row s.updated) d'
      ∧ (5 + s.updates.length ≤ s.stop → r = loads zero k row) := by
  have hquery := query_ends zero s.stop h
  by_cases hcut : s.stop ≤ 4
  · rw [if_pos hcut] at hquery
    refine ⟨_, _, hquery.then_error, ?_, fun hle => by omega⟩
    rw [Session.updated, Nat.sub_eq_zero_of_le (by omega), List.take_zero, updated_nil]
    exact h
  rw [if_neg hcut] at hquery
  by_cases hk : 2 ≤ k
  · rw [loads, if_neg (Nat.not_lt.2 hk)] at hquery ⊢
    rw [← hquery.2] at h
    obtain ⟨r, d', hends, hstage, hret⟩ := updateAll_ends s.updates 5 h hk
    rcases r with e | ⟨⟩
    · exact ⟨_, _, hquery.then_ok hends.then_error, hstage, fun hle => nomatch hret hle⟩
    · refine ⟨_, _, hquery.then_ok (hends.then_ok (ends_pure _)), ?_, fun _ => rfl⟩
      rw [hends.2]
      exact hstage
  · rw [loads, if_pos (Nat.not_le.1 hk)] at hquery ⊢
    have hrow : row = none := by
      rcases hrow : row with _ | m
      · rfl
      · exact absurd (h.created (by rw [hrow]; rfl)) hk
    subst hrow
    exact ⟨_, _, hquery.then_error, h, fun _ => rfl⟩

/-- The checks of the constructor pass whatever tables there are, and the index does not. -/
theorem construct_ends (s : Session μ) (h : Stage n k row c.db) :
    ∃ r d', Ends (construct n s.stop false) c r d' ∧ Stage n k row d'
      ∧ (r = .ok () ∧ 2 < s.stop ∧ 1 ≤ k ∨ r = .error .simple ∧ (s.stop ≤ 2 ∨ k = 0)) := by
  have hcache := check_ends s.stop 0 n.cacheTable c
  by_cases h0 : s.stop ≤ 0
  · rw [if_pos h0] at hcache
    exact ⟨_, _, hcache.then_error, h, .inr ⟨rfl, .inl (by omega)⟩⟩
  rw [if_neg h0] at hcache
  have hmeta := check_ends s.stop 1 n.metaTable
    (outcome (exec s.stop 0 (checkTable n.cacheTable)) c).2
  by_cases h1 : s.stop ≤ 1
  · rw [if_pos h1] at hmeta
    refine ⟨_, _, hcache.then_ok hmeta.then_error, ?_, .inr ⟨rfl, .inl (by omega)⟩⟩
    rw [hcache.2]
    exact h
  rw [if_neg h1, hcache.2] at hmeta
  rw [← hmeta.2] at h
  obtain ⟨r, d', hends, hstage, hret⟩ := index_ends h
  exact ⟨r, d', hcache.then_ok (hmeta.then_ok hends), hstage, hret⟩

theorem later_session (zero : μ) (s : Session μ) (h : Stage n k row d) :
    ∃ d', (step n zero (some d) s).2 = some d'
      ∧ Stage n k (SqliteStore.updated row s.updated) d'
      ∧ (5 + s.updates.length ≤ s.stop →
        (step n zero (some d) s).1 = if k = 0 then .error .simple else loads zero k row) := by
  obtain ⟨r, d', hends, hstage, hret⟩ := construct_ends (c := connect d) s h
  obtain ⟨rfl, hstop, hk⟩ | ⟨rfl, hret⟩ := hret
  · rw [← hends.2] at hstage
    obtain ⟨r, d'', hrest, hstage, hret⟩ := rest_ends zero s hstage
    have hmain : Ends (main n zero s false) (connect d) r d'' :=
      hends.then_ok hrest
    refine ⟨d'', congrArg some hmain.2, hstage, fun hle => ?_⟩
    rw [if_neg (Nat.one_le_iff_ne_zero.1 hk), ← hret hle]
    exact hmain.1
  · have hmain : Ends (main n zero s false) (connect d) (.error .simple) d' := hends.then_error
    refine ⟨d', congrArg some hmain.2, ?_, fun hle => ?_⟩
    · have hrow : SqliteStore.updated row s.updated = row := by
        rcases hret with hcut | hk
        · rw [Session.updated, Nat.sub_eq_zero_of_le (by omega), List.take_zero, updated_nil]
        · rcases hrow : row with _ | m
          · rfl
          · have := h.created (by rw [hrow]; rfl)
            omega
      rw [hrow]
      exact hstage
    · rw [if_pos (by omega)]
      exact hmain.1

theorem create_ends (stop i : ℕ) {name : String} (hnew : name ∉ c.db.tables) :
    Ends (exec stop i (createTable name)) c (if stop ≤ i then .error .simple else .ok ())
      (if stop ≤ i then c.db else { c.db with tables := c.db.tables ++ [name] }) := by
  split
  · exact exec_cut (by assumption)
  · rename_i h
    have hsql : createTable name c.db
        = some fun d => ⟨[], true, { d with tables := d.tables ++ [name] }, true⟩ := if_neg hnew
    exact exec_made (Nat.not_le.1 h) hsql rfl

/-- The constructor creates the tables it gets to. -/
theorem construct_new (s : Session μ) (hempty : c.db = .empty) :
    ∃ (r : Except SqlError Unit) (d : Schema μ), Ends (construct n s.stop true) c r d
      ∧ Stage n s.stop none d ∧ (r = .ok () ∧ 2 < s.stop ∨ r = .error .simple ∧ s.stop ≤ 2) := by
  have hnew : n.cacheTable ∉ c.db.tables := by simp [hempty, Schema.empty]
  have hcache := create_ends s.stop 0 hnew
  by_cases h0 : s.stop ≤ 0
  · rw [if_pos h0, if_pos h0] at hcache
    refine ⟨_, _, hcache.then_error, ⟨?_, ?_, by simp [hempty, Schema.empty], nofun⟩,
      .inr ⟨rfl, by omega⟩⟩
    · simp only [hempty, Schema.empty, List.not_mem_nil, false_iff]
      omega
    · simp only [hempty, Schema.empty, List.not_mem_nil, false_iff]
      omega
  rw [if_neg h0, if_neg h0] at hcache
  have htables : (outcome (exec s.stop 0 (createTable n.cacheTable)) c).2.db.tables
      = [n.cacheTable] := by rw [hcache.2, hempty]; rfl
  have hrows : (outcome (exec s.stop 0 (createTable n.cacheTable)) c).2.db.metaRows = [] := by
    rw [hcache.2, hempty]; rfl
  have hmeta := create_ends s.stop 1 (show n.metaTable ∉ _ by
    rw [htables, List.mem_singleton]; exact n.differ.symm)
  by_cases h1 : s.stop ≤ 1
  · rw [if_pos h1, if_pos h1] at hmeta
    refine ⟨_, _, hcache.then_ok hmeta.then_error, ⟨?_, ?_, hrows, nofun⟩, .inr ⟨rfl, by omega⟩⟩
    · rw [htables, List.mem_singleton]
      exact iff_of_true rfl (by omega)
    · rw [htables, List.mem_singleton]
      exact iff_of_false n.differ.symm (by omega)
  rw [if_neg h1, if_neg h1] at hmeta
  have hstage : Stage n s.stop none
      (outcome (exec s.stop 1 (createTable n.metaTable))
        (outcome (exec s.stop 0 (createTable n.cacheTable)) c).2).2.db := by
    rw [hmeta.2]
    refine ⟨?_, ?_, hrows, nofun⟩
    · exact iff_of_true (by simp [htables]) (by omega)
    · exact iff_of_true (by simp) (by omega)
  obtain ⟨r, d, hends, hstage, hret⟩ := index_ends hstage
  refine ⟨r, d, hcache.then_ok (hmeta.then_ok hends), hstage, ?_⟩
  obtain ⟨hr, hstop, -⟩ | ⟨hr, hstop⟩ := hret
  · exact .inl ⟨hr, hstop⟩
  · exact .inr ⟨hr, by omega⟩

/-- The tables and the row that the first session has got to. -/
theorem first_session (zero : μ) (s : Session μ) :
    ∃ d, (step n zero none s).2 = some d
      ∧ Stage n s.stop (if s.stop < 4 then none else some (s.updated.getLastD s.inserted)) d := by
  obtain ⟨r, d, hends, hstage, hret⟩ := construct_new (n := n) (c := connect .empty) s rfl
  obtain ⟨rfl, hstop⟩ | ⟨rfl, hstop⟩ := hret
  · by_cases hcut : s.stop ≤ 3
    · have hmain : Ends (main n zero s true) (connect .empty) (.error .execute) d :=
        hends.then_ok (hends.2.subst (execBound_cut hcut).then_error)
      refine ⟨d, congrArg some hmain.2, ?_⟩
      rw [if_pos (by omega)]
      exact hstage
    · have hdb : insertMeta s.inserted d = ⟨[], true, { d with metaRows := [s.inserted] }, true⟩ :=
        if_pos hstage.metaRows
      have hinsert : Ends (execBound s.stop 3 (onMeta n (insertMeta s.inserted)))
          (outcome (construct n s.stop true) (connect .empty)).2 (.ok ())
          { d with metaRows := [s.inserted] } := by
        have hmade := execBound_made (Nat.not_le.1 hcut)
          (hends.2.symm ▸ hstage.onMeta hstop.le (insertMeta s.inserted))
          (by rw [hends.2, hdb])
        rwa [hends.2, hdb] at hmade
      have hrow : Stage n s.stop (some s.inserted) { d with metaRows := [s.inserted] } :=
        ⟨hstage.cacheTable, hstage.metaTable, rfl, fun _ => by omega⟩
      rw [← hinsert.2] at hrow
      obtain ⟨r, d', hrest, hstage, -⟩ := rest_ends zero s hrow
      have hmain : Ends (main n zero s true) (connect .empty) r d' :=
        hends.then_ok (hinsert.then_ok hrest)
      refine ⟨d', congrArg some hmain.2, ?_⟩
      rw [if_neg (by omega)]
      exact hstage
  · have hmain : Ends (main n zero s true) (connect .empty) (.error .simple) d :=
      hends.then_error
    refine ⟨d, congrArg some hmain.2, ?_⟩
    rw [if_pos (by omega)]
    exact hstage

/-- What the later sessions do to the row. -/
theorem later_sessions (zero : μ) : ∀ (later : List (Session μ)) {row : Option μ} {d : Schema μ},
    Stage n k row d → ∃ d', (run (step n zero) (some d) later).2 = some d'
      ∧ Stage n k (SqliteStore.updated row (later.flatMap Session.updated)) d'
  | [], row, d, h => ⟨d, rfl, by rwa [List.flatMap_nil, updated_nil]⟩
  | s :: later, row, d, h => by
    obtain ⟨d', hstep, hstage, -⟩ := later_session zero s h
    obtain ⟨d'', hrun, hlast⟩ := later_sessions zero later hstage
    refine ⟨d'', by rw [run_cons, hstep, hrun], ?_⟩
    rwa [List.flatMap_cons, ← updated_append]

/-- Over any sequence of sessions on a file that is not there at first, each cut short anywhere or
not at all, a session that is not cut short ends as the first one has left it to: without the cache
table the constructor throws, without the meta table `query_meta` does, and without its row
`query_meta` returns zeros, whatever the sessions between have done. Where the first session has
inserted the row, what is loaded is the last row that a session before has written. -/
theorem store_loads (n : Names) (zero : μ) (first : Session μ) (later : List (Session μ))
    (s : Session μ) (hs : 5 + s.updates.length ≤ s.stop) :
    (step n zero (run (step n zero) none (first :: later)).2 s).1 =
      if first.stop = 0 then .error .simple
      else if first.stop = 1 then .error .prepare
      else if first.stop < 4 then .ok zero
      else .ok (((first :: later).flatMap Session.updated).getLastD first.inserted) := by
  obtain ⟨d, hfirst, hstage⟩ := first_session (n := n) zero first
  obtain ⟨d', hrun, hlast⟩ := later_sessions zero later hstage
  obtain ⟨-, -, -, hanswer⟩ := later_session zero s hlast
  rw [run_cons, hfirst, hrun, hanswer hs, loads]
  by_cases h0 : first.stop = 0
  · rw [if_pos h0, if_pos h0]
  rw [if_neg h0, if_neg h0]
  by_cases h1 : first.stop = 1
  · rw [if_pos h1, if_pos (by omega)]
  rw [if_neg h1, if_neg (by omega)]
  by_cases h4 : first.stop < 4
  · rw [if_pos h4, if_pos h4]
    rfl
  · rw [if_neg h4, if_neg h4, List.flatMap_cons]
    exact congrArg (fun o : Option μ => Except.ok (o.getD zero))
      (updated_append (some first.inserted) first.updated (later.flatMap Session.updated))

/-- The first session ends before the meta row is inserted, and the second loads zero. -/
theorem store_loads_lost :
    (step lru 0 (run (step lru 0) none [⟨3, 7, []⟩]).2 ⟨6, 7, [8]⟩).1 = .ok 0 :=
  store_loads lru 0 ⟨3, 7, []⟩ [] ⟨6, 7, [8]⟩ (by decide)

end SqliteStore

end XCache
