import XCache.SqliteBase
import XCache.SqliteLfuda
import XCache.SqliteLru
import XCache.Proofs.Eviction

/-!
# Every statement is destroyed

However a call ends, the statement it has prepared is destroyed once, and not used after that
(`calls_release`). A query that finds no row runs its statement a second time, and one that finds
two has run it all the same (`outcome_querySingle`). The statements of the adapters are such that
none of this shows: what `SqliteCache` has as one step is what the steps come to
(`statements_refine`).
-/

namespace XCache

namespace SqliteBase

variable {δ ρ α : Type} {changes : δ → ℤ} {columnInt : ρ → ℤ} {c : Connection δ ρ}

/-- The connection in the middle of a call. -/
def Connection.during (c : Connection δ ρ) (db : δ) (p : Prepared δ ρ) : Connection δ ρ :=
  { c with db := db, statements := c.statements ++ [some p] }

/-- The connection after a call that has destroyed its statement. -/
def Connection.after (c : Connection δ ρ) (db : δ) : Connection δ ρ :=
  { c with db := db, statements := c.statements ++ [none] }

/-! ## The steps of a call -/

theorem outcome_sqlite3Pre (statement : Statement δ ρ) (c : Connection δ ρ) :
    outcome (sqlite3Pre (some statement)) c
      = (.ok c.statements.length, c.during c.db ⟨statement, .reset⟩) := rfl

theorem outcome_sqlite3Step (c : Connection δ ρ) (db : δ) (p : Prepared δ ρ) :
    outcome (sqlite3Step c.statements.length) (c.during db p)
      = (.ok (p.step db).1, c.during (p.step db).2.2 (p.step db).2.1) := by
  simp [outcome, sqlite3Step, Connection.during]

theorem outcome_sqlite3Finalize (c : Connection δ ρ) (db : δ) (p : Prepared δ ρ) :
    outcome (sqlite3Finalize c.statements.length) (c.during db p)
      = (.ok p.cursor.clean, c.after db) := by
  simp [outcome, sqlite3Finalize, Connection.during, Connection.after]

theorem outcome_sqlite3Final (c : Connection δ ρ) (db : δ) {p : Prepared δ ρ}
    (hp : p.cursor.clean = true) :
    outcome (sqlite3Final c.statements.length) (c.during db p) = (.ok (), c.after db) := by
  rw [sqlite3Final, outcome_bind_ok (outcome_sqlite3Finalize c db p), hp]
  exact outcome_throwIf _ _ _

/-- A statement that `sqlite3_finalize` gives an error for is destroyed all the same. -/
theorem outcome_sqlite3Final_error (c : Connection δ ρ) (db : δ) {p : Prepared δ ρ}
    (hp : p.cursor.clean = false) :
    outcome (sqlite3Final c.statements.length) (c.during db p)
      = (.error .finalize, c.after db) := by
  rw [sqlite3Final, outcome_bind_ok (outcome_sqlite3Finalize c db p), hp]
  exact outcome_throwIf _ _ _

/-- After an error the statement is destroyed before the exception leaves. -/
theorem outcome_perror (c : Connection δ ρ) (db : δ) (p : Prepared δ ρ) :
    outcome (perror .error c.statements.length) (c.during db p)
      = (.error .execute, c.after db) := by
  rw [perror, outcome_bind_ok (outcome_sqlite3Finalize c db p), outcome_throw]

theorem outcome_perror_row (r : ρ) (h : ℕ) (c : Connection δ ρ) :
    outcome (perror (.row r) h) c = (.ok (), c) := rfl

theorem outcome_perror_done (h : ℕ) (c : Connection δ ρ) :
    outcome (perror .done h) c = (.ok (), c) := rfl

/-- How a run of a statement ends. -/
def ending (done : Bool) : Code ρ × Cursor ρ := Cursor.next [] done true

/-- The loop takes the rows that are left. -/
theorem outcome_stepRows (c : Connection δ ρ) (db : δ) (statement : Statement δ ρ)
    (done stops : Bool) : ∀ (left rows : List ρ),
      outcome (stepRows c.statements.length (left.length + 1) rows)
          (c.during db ⟨statement, .running left done stops⟩)
        = (.ok (rows ++ left, (ending done).1), c.during db ⟨statement, (ending done).2⟩)
  | [], rows => by
    rw [List.length_nil, stepRows, outcome_bind_ok (outcome_sqlite3Step c db _)]
    cases done <;> simp [Prepared.step, Cursor.next, ending]
  | r :: left, rows => by
    have ih := outcome_stepRows c db statement done stops left (rows ++ [r])
    rw [List.append_assoc, List.singleton_append] at ih
    rw [List.length_cons, stepRows, outcome_bind_ok (outcome_sqlite3Step c db _)]
    exact ih

/-- From the start, the first step runs the statement. -/
theorem outcome_stepRows_reset (c : Connection δ ρ) (db : δ) (statement : Statement δ ρ) :
    outcome (stepRows c.statements.length ((statement db).rows.length + 1) [])
        (c.during db ⟨statement, .reset⟩)
      = (.ok ((statement db).rows, (ending (statement db).done).1),
        c.during (statement db).db ⟨statement, (ending (statement db).done).2⟩) := by
  have hrun := outcome_stepRows c (statement db).db statement (statement db).done
    (statement db).stops (statement db).rows []
  rw [List.nil_append] at hrun
  rw [← hrun, stepRows, outcome_bind_ok (outcome_sqlite3Step c _ _),
    outcome_bind_ok (outcome_sqlite3Step c _ _)]
  rfl

/-! ## What the calls come to -/

/-- The end of a call that has run its statement through. -/
def finished (e : Execution δ ρ) (a : α) : Except SqlError α :=
  if e.done then .ok a else .error .execute

theorem outcome_execute (c : Connection δ ρ) (statement : Statement δ ρ) :
    outcome (execute changes (some statement)) c
      = (finished (statement c.db) (changes (statement c.db).db),
        c.after (statement c.db).db) := by
  have hget : outcome (get : Sql δ ρ (Connection δ ρ)) c = (.ok c, c) := rfl
  rw [execute, outcome_bind_ok hget, outcome_bind_ok (outcome_sqlite3Pre statement c), iterations,
    outcome_bind_ok (outcome_stepRows_reset c c.db statement), finished]
  rcases hdone : (statement c.db).done
  · dsimp only [ending, Cursor.next]
    rw [outcome_bind_error (outcome_perror c _ _)]
    rfl
  · dsimp only [ending, Cursor.next]
    rw [outcome_bind_ok (outcome_perror_done _ _),
      outcome_bind_ok (outcome_sqlite3Final c _ rfl)]
    rfl

theorem outcome_queryMulti (getRow : ρ → α) (c : Connection δ ρ) (statement : Statement δ ρ) :
    outcome (queryMulti getRow (some statement)) c
      = (finished (statement c.db) ((statement c.db).rows.map getRow),
        c.after (statement c.db).db) := by
  have hget : outcome (get : Sql δ ρ (Connection δ ρ)) c = (.ok c, c) := rfl
  rw [queryMulti, outcome_bind_ok hget, outcome_bind_ok (outcome_sqlite3Pre statement c),
    iterations, outcome_bind_ok (outcome_stepRows_reset c c.db statement), finished]
  rcases hdone : (statement c.db).done
  · dsimp only [ending, Cursor.next]
    rw [outcome_bind_error (outcome_perror c _ _)]
    rfl
  · dsimp only [ending, Cursor.next]
    rw [outcome_bind_ok (outcome_perror_done _ _),
      outcome_bind_ok (outcome_sqlite3Final c _ rfl)]
    rfl

/-- What the second step of `query_single` finds, and with what the call ends: a statement that is
cut off at its second row may fail when it is finalized. -/
def second (a : α) : List ρ → Bool → Bool → Except SqlError α
  | [], true, _ => .ok a
  | [], false, _ => .error .execute
  | _ :: _, _, true => .error .tooManyEntries
  | _ :: _, _, false => .error .finalize

/-- The result of `query_single`, and the database: a statement that yields no row is run again. -/
def single (zero : α) (getRow : ρ → α) (statement : Statement δ ρ) (db : δ) :
    Except SqlError α × δ :=
  let e := statement db
  match e.rows with
  | r :: rest => (second (getRow r) rest e.done e.stops, e.db)
  | [] =>
    if e.done then
      let e' := statement e.db
      (second zero e'.rows e'.done e'.stops, e'.db)
    else (.error .execute, e.db)

/-- The second step, and the rest of the call. -/
theorem outcome_second (c : Connection δ ρ) (db : δ) (statement : Statement δ ρ) (a : α)
    (rows : List ρ) (done stops : Bool) (p : Prepared δ ρ)
    (hp : p = ⟨statement, (Cursor.next rows done stops).2⟩) :
    outcome (do
      perror (Cursor.next rows done stops).1 c.statements.length
      sqlite3Final c.statements.length
      throwIf ((Cursor.next rows done stops).1.isDone = false) .tooManyEntries
      return a : Sql δ ρ α) (c.during db p)
      = (second a rows done stops, c.after db) := by
  subst hp
  rcases rows with _ | ⟨r, rest⟩
  · rcases done
    · dsimp only [Cursor.next]
      rw [outcome_bind_error (outcome_perror c _ _)]
      rfl
    · dsimp only [Cursor.next]
      rw [outcome_bind_ok (outcome_perror_done _ _),
        outcome_bind_ok (outcome_sqlite3Final c _ rfl)]
      rfl
  · rcases stops
    · dsimp only [Cursor.next]
      rw [outcome_bind_ok (outcome_perror_row _ _ _),
        outcome_bind_error (outcome_sqlite3Final_error c _ rfl)]
      rfl
    · dsimp only [Cursor.next]
      rw [outcome_bind_ok (outcome_perror_row _ _ _),
        outcome_bind_ok (outcome_sqlite3Final c _ rfl)]
      rfl

theorem outcome_querySingle (zero : α) (getRow : ρ → α) (c : Connection δ ρ)
    (statement : Statement δ ρ) :
    outcome (querySingle zero getRow (some statement)) c
      = ((single zero getRow statement c.db).1,
        c.after (single zero getRow statement c.db).2) := by
  rw [querySingle, outcome_bind_ok (outcome_sqlite3Pre statement c),
    outcome_bind_ok (outcome_sqlite3Step c _ _)]
  dsimp only [Prepared.step]
  rcases hrows : (statement c.db).rows with _ | ⟨r, rest⟩
  · rcases hdone : (statement c.db).done
    · dsimp only [Cursor.next]
      rw [outcome_bind_error (outcome_perror c _ _)]
      simp [single, hrows, hdone]
    · dsimp only [Cursor.next]
      rw [outcome_bind_ok (outcome_perror_done _ _),
        outcome_bind_ok (outcome_sqlite3Step c _ _)]
      refine (outcome_second c _ statement zero (statement (statement c.db).db).rows _ _ _
        rfl).trans ?_
      simp [single, hrows, hdone, Prepared.step]
  · dsimp only [Cursor.next]
    rw [outcome_bind_ok (outcome_perror_row _ _ _),
      outcome_bind_ok (outcome_sqlite3Step c _ _)]
    refine (outcome_second c _ statement (getRow r) rest _ _ _ rfl).trans ?_
    simp [single, hrows, Prepared.step]

/-! ## Over a run -/

/-- No statement is left, and none has been used that was not there. -/
structure Idle (c : Connection δ ρ) : Prop where
  destroyed : ∀ p ∈ c.statements, p = none
  proper : c.misused = false

theorem Idle.after (h : Idle c) (db : δ) : Idle (c.after db) where
  destroyed p hp := by
    rcases List.mem_append.1 hp with hp | hp
    · exact h.destroyed p hp
    · exact List.mem_singleton.1 hp
  proper := h.proper

theorem finished_ne {e : Execution δ ρ} {a : α} {err : SqlError}
    (h : finished e a = .error err) : err = .execute := by
  unfold finished at h
  split_ifs at h
  exact (Except.error.inj h).symm

theorem single_ne {zero : α} {getRow : ρ → α} {statement : Statement δ ρ} {db : δ}
    {err : SqlError} (h : (single zero getRow statement db).1 = .error err) :
    err ≠ .unfinished := by
  have hsecond : ∀ (a : α) (rows : List ρ) (done stops : Bool),
      second a rows done stops = .error err → err ≠ .unfinished := by
    rintro a (_ | ⟨r, rest⟩) (_ | _) (_ | _) hs <;> simp [second] at hs <;> simp [← hs]
  unfold single at h
  dsimp only at h
  split at h
  · exact hsecond _ _ _ _ h
  · split_ifs at h
    · exact hsecond _ _ _ _ h
    · simp [← Except.error.inj h]

theorem outcome_executeSimple (c : Connection δ ρ) (statement : Statement δ ρ) :
    outcome (executeSimple changes (some statement)) c
      = (if (statement c.db).done then .ok (changes (statement c.db).db) else .error .simple,
        { c with db := (statement c.db).db }) := by
  have hget : outcome (get : Sql δ ρ (Connection δ ρ)) c = (.ok c, c) := rfl
  have hset : outcome (set { c with db := (statement c.db).db } : Sql δ ρ PUnit) c
      = (.ok ⟨⟩, { c with db := (statement c.db).db }) := rfl
  rw [executeSimple, outcome_bind_ok hget, outcome_bind_ok hset, outcome_bind, outcome_throwIf]
  rcases (statement c.db).done <;> rfl

theorem step_idle (h : Idle c) (op : Op δ ρ α) :
    Idle (step changes columnInt c op).2
      ∧ (step changes columnInt c op).1 ≠ .error .unfinished := by
  have hafter : ∀ {β : Type} {x : Sql δ ρ β} {f : β → Ret α} {r : Except SqlError β} {db : δ},
      outcome x c = (r, c.after db) → (∀ err, r = .error err → err ≠ .unfinished) →
      Idle (outcome (f <$> x) c).2 ∧ (outcome (f <$> x) c).1 ≠ .error .unfinished := by
    intro β x f r db hx herr
    rw [outcome_map f hx]
    refine ⟨h.after db, ?_⟩
    rcases r with err | b
    · simpa [Except.map] using herr err rfl
    · simp [Except.map]
  have hpre : ∀ {β : Type} {x : Sql δ ρ β} {f : β → Ret α} {err : SqlError},
      outcome x c = (.error err, c) → err ≠ .unfinished →
      Idle (outcome (f <$> x) c).2 ∧ (outcome (f <$> x) c).1 ≠ .error .unfinished := by
    intro β x f err hx herr
    rw [outcome_map f hx]
    exact ⟨h, by simpa [Except.map] using herr⟩
  have hfin : ∀ {β : Type} {e : Execution δ ρ} {b : β} (err : SqlError),
      finished e b = .error err → err ≠ .unfinished :=
    fun err he => by simp [finished_ne he]
  rcases op with (_ | st) | (_ | st) | (_ | st) | ⟨zero, getRow, _ | st⟩ | ⟨getRow, _ | st⟩
  · exact hpre rfl (by simp)
  · exact hafter (outcome_execute c st) hfin
  · exact hpre rfl (by simp)
  · simp only [step, call, outcome_map _ (outcome_executeSimple c st)]
    refine ⟨⟨h.destroyed, h.proper⟩, ?_⟩
    split <;> simp [Except.map]
  · exact hpre rfl (by simp)
  · exact hafter (outcome_querySingle 0 columnInt c st) fun err => single_ne
  · exact hpre rfl (by simp)
  · exact hafter (outcome_querySingle zero getRow c st) fun err => single_ne
  · exact hpre rfl (by simp)
  · exact hafter (outcome_queryMulti getRow c st) hfin

/-- Whatever the statements do and however the calls end, in any sequence of calls on a connection:
every statement that has been prepared is destroyed, none is used after that, and the connection can
be closed; what ends a call is never that a loop has been granted too few iterations. -/
theorem calls_release (changes : δ → ℤ) (columnInt : ρ → ℤ) (db : δ) (ops : List (Op δ ρ α)) :
    let c := (run (step changes columnInt) (connect db) ops).2
    (∀ p ∈ c.statements, p = none) ∧ c.misused = false ∧ sqlite3Close c = true
      ∧ ∀ r ∈ (run (step changes columnInt) (connect db) ops).1, r ≠ .error .unfinished := by
  intro c
  have hstart : Idle (connect (ρ := ρ) db) := ⟨by simp [connect], rfl⟩
  have hlast : Idle c :=
    run_invariant (I := Idle) (fun _ op h _ => (step_idle h op).1) _ ops hstart (RunOk.top _ ops)
  have hout : ∀ r ∈ (run (step changes columnInt) (connect db) ops).1, r ≠ .error .unfinished :=
    run_outputs (I := Idle) (fun _ op h _ => (step_idle h op).1)
      (fun _ op h _ => (step_idle h op).2) _ ops hstart (RunOk.top _ ops)
  refine ⟨hlast.destroyed, hlast.proper, ?_, hout⟩
  exact List.all_eq_true.2 fun p hp => by simp [hlast.destroyed p hp]

/-! ## The statements of the adapters -/

section Adapter

variable {κ τ ε : Type} [Columns κ]

/-- The two tables. -/
abbrev Tables (κ : Type) [Columns κ] := Table κ × Option MetaRow

/-- The tables, and what `sqlite3_changes` gives. -/
abbrev Stored (κ : Type) [Columns κ] := Tables κ × ℤ

/-- A row of either table. -/
abbrev Line (κ : Type) [Columns κ] := Row κ ⊕ MetaRow

/-- A statement that fails, or does what `f` says unless a constraint would be broken. -/
def asStatement (fails stops : Bool) (f : Stored κ → Option (List (Line κ) × Stored κ)) :
    Statement (Stored κ) (Line κ) := fun d =>
  if fails then ⟨[], false, d, stops⟩
  else
    match f d with
    | some (rows, d') => ⟨rows, true, d', stops⟩
    | none => ⟨[], false, d, stops⟩

/-- A statement that writes the cache table, and what it changes. -/
def writeSql (f : Table κ → Option (Table κ)) (changed : Table κ → ℕ) (d : Stored κ) :
    Option (List (Line κ) × Stored κ) :=
  (f d.1.1).map fun t => ([], (t, d.1.2), changed d.1.1)

/-- An `UPDATE` of the meta table's row. -/
def metaSql (row : MetaRow) (d : Stored κ) : Option (List (Line κ) × Stored κ) :=
  some ([], (d.1.1, d.1.2.map fun _ => row), d.1.2.toList.length)

/-- A `SELECT`. -/
def selectSql (rows : Tables κ → List (Line κ)) (d : Stored κ) :
    Option (List (Line κ) × Stored κ) :=
  some (rows d.1, d)

/-- A `DELETE … RETURNING` of at most one row of the cache table. -/
def deleteSql (pick : Table κ → Option (Row κ)) (rest : Table κ → Table κ) (d : Stored κ) :
    Option (List (Line κ) × Stored κ) :=
  some ((pick d.1.1).toList.map .inl, (rest d.1.1, d.1.2), (pick d.1.1).toList.length)

/-- `get_row` of a statement about the cache table, and of one about the meta table. -/
def ofRow (zero : α) (getRow : Row κ → α) : Line κ → α := Sum.elim getRow fun _ => zero

def ofMeta (zero : α) (getRow : MetaRow → α) : Line κ → α := Sum.elim (fun _ => zero) getRow

/-- Both return the same, or throw what SQLite has failed with. -/
def Alike : Except Error α → Except SqlError α → Prop
  | .ok a, .ok b => a = b
  | .error (.sqlite _), .error .execute => True
  | _, _ => False

/-- The step of `SqliteCache` and the steps of `SQLiteBase` end alike, with the same tables. -/
def Refines (x : Call κ τ ε α) (w : World κ τ ε) (y : Sql (Stored κ) (Line κ) α)
    (c : Connection (Stored κ) (Line κ)) : Prop :=
  Alike (outcome x w).1 (outcome y c).1
    ∧ ((outcome x w).2.table, (outcome x w).2.metaRow) = (outcome y c).2.db.1

variable {w : World κ τ ε} {n : ℤ} {ss : List (Option (Prepared (Stored κ) (Line κ)))} {b : Bool}

theorem refines_write (f : Table κ → Option (Table κ)) (changed : Table κ → ℕ) :
    Refines ((fun k : ℕ => (k : ℤ)) <$> writeTable f changed) w
      (execute Prod.snd (some (asStatement (decide (w.clock ∈ w.fails)) b (writeSql f changed))))
      ⟨((w.table, w.metaRow), n), ss, false⟩ := by
  unfold Refines
  rw [outcome_execute]
  by_cases hfails : w.clock ∈ w.fails
  · have hw : outcome (writeTable f changed) w = (.error (.sqlite .failed), w.tick 1) :=
      (outcome_statement _ w).trans (if_pos hfails)
    rw [outcome_map _ hw]
    simp [hfails, asStatement, finished, Connection.after, Alike, World.tick, Except.map]
  rcases hf : f w.table with _ | t
  · have hw : outcome (writeTable f changed) w = (.error (.sqlite .constraint), w.tick 1) :=
      (outcome_statement _ w).trans ((if_neg hfails).trans (by simp [outcome, World.tick, hf]))
    rw [outcome_map _ hw]
    simp [hfails, hf, asStatement, writeSql, finished, Connection.after, Alike, World.tick,
      Except.map]
  · have hw : outcome (writeTable f changed) w
        = (.ok (changed w.table), { w.tick 1 with table := t }) :=
      (outcome_statement _ w).trans ((if_neg hfails).trans (by simp [outcome, World.tick, hf]))
    rw [outcome_map _ hw]
    simp [hfails, hf, asStatement, writeSql, finished, Connection.after, Alike, World.tick,
      Except.map]

/-- A statement that finds no row leaves the tables as they are, so that it may run again. -/
theorem refines_single {f : Stored κ → Option (List (Line κ) × Stored κ)}
    (pick : Tables κ → Option (Line κ)) (rest : Tables κ → Tables κ)
    (hf : ∀ d, ∃ k, f d = some ((pick d.1).toList, rest d.1, k))
    (hrest : ∀ d, pick d = none → rest d = d) {zero : α} {getRow : Line κ → α}
    {body : Call κ τ ε α} (hbody : ∀ v, outcome body v
      = (.ok ((pick (v.table, v.metaRow)).elim zero getRow),
        { v with
          table := (rest (v.table, v.metaRow)).1
          metaRow := (rest (v.table, v.metaRow)).2 })) :
    Refines (statement body) w
      (querySingle zero getRow (some (asStatement (decide (w.clock ∈ w.fails)) b f)))
      ⟨((w.table, w.metaRow), n), ss, false⟩ := by
  unfold Refines
  rw [outcome_querySingle, outcome_statement, hbody]
  by_cases hfails : w.clock ∈ w.fails
  · simp [hfails, asStatement, single, Connection.after, Alike, World.tick]
  obtain ⟨k, hk⟩ := hf ((w.table, w.metaRow), n)
  rcases hp : pick (w.table, w.metaRow) with _ | r
  · have heq := hrest (w.table, w.metaRow) hp
    obtain ⟨k', hk'⟩ := hf ((w.table, w.metaRow), k)
    simp only [hp, heq] at hk hk'
    simp [hfails, hk, hk', hp, heq, asStatement, single, second, Connection.after, Alike,
      World.tick]
  · simp only [hp] at hk
    simp [hfails, hk, hp, asStatement, single, second, Connection.after, Alike, World.tick]

/-- A query for at most one row. -/
theorem refines_select (pick : Tables κ → Option (Line κ)) {zero : α} {getRow : Line κ → α}
    {f : World κ τ ε → α} (hf : ∀ v, f v = (pick (v.table, v.metaRow)).elim zero getRow) :
    Refines (readWorld f) w
      (querySingle zero getRow (some (asStatement (decide (w.clock ∈ w.fails)) b
        (selectSql fun d => (pick d).toList))))
      ⟨((w.table, w.metaRow), n), ss, false⟩ :=
  refines_single pick id (fun d => ⟨d.2, rfl⟩) (fun _ _ => rfl) fun v => by rw [← hf]; rfl

/-- A query for all rows, which the adapter pops from the back. -/
theorem refines_all {rows : Tables κ → List (Line κ)} {getRow : Line κ → α}
    {f : World κ τ ε → List α}
    (hf : ∀ v, f v = ((rows (v.table, v.metaRow)).map getRow).reverse) :
    Refines (readWorld f) w
      (List.reverse <$> queryMulti getRow
        (some (asStatement (decide (w.clock ∈ w.fails)) b (selectSql rows))))
      ⟨((w.table, w.metaRow), n), ss, false⟩ := by
  unfold Refines
  have hread : outcome (readWorld f) w
      = if w.clock ∈ w.fails then (.error (.sqlite .failed), w.tick 1)
        else (.ok (f (w.tick 1)), w.tick 1) := outcome_statement _ w
  rw [outcome_map _ (outcome_queryMulti getRow _ _), hread, hf]
  by_cases hfails : w.clock ∈ w.fails
  · simp [hfails, asStatement, finished, Connection.after, Alike, World.tick, Except.map]
  · simp [hfails, asStatement, selectSql, finished, Connection.after, Alike, World.tick,
      Except.map]

theorem delete_of_find_none {t : Table κ} {key : Bytes} (h : t.find key = none) :
    t.delete key = t :=
  Table.ext (List.filter_eq_self.2 fun r hr => by
    simpa using List.find?_eq_none.1 h r hr)

/-- A deletion of at most one row. -/
theorem refines_delete {pick : Table κ → Option (Row κ)} {rest : Table κ → Table κ}
    (hrest : ∀ t, pick t = none → rest t = t) {zero : α} {getRow : Row κ → α}
    {body : Call κ τ ε α} (hbody : ∀ v, outcome body v
      = (.ok ((pick v.table).elim zero getRow), { v with table := rest v.table })) :
    Refines (statement body) w
      (querySingle zero (ofRow zero getRow) (some (asStatement (decide (w.clock ∈ w.fails)) b
        (deleteSql pick rest))))
      ⟨((w.table, w.metaRow), n), ss, false⟩ := by
  refine refines_single (fun d => (pick d.1).map .inl) (fun d => (rest d.1, d.2))
    (fun d => ⟨(pick d.1.1).toList.length, ?_⟩) (fun d hd => ?_) fun v => ?_
  · rw [deleteSql]
    cases pick d.1.1 <;> rfl
  · rw [Option.map_eq_none_iff] at hd
    simp [hrest d.1 hd]
  · rw [hbody]
    cases pick v.table <;> rfl

theorem refines_updateMeta (P : Policy κ τ ε) (m : Meta ε) :
    Refines (P.updateMeta m) w
      ((fun _ => ()) <$> execute Prod.snd
        (some (asStatement (decide (w.clock ∈ w.fails)) b (metaSql (P.bindMeta m)))))
      ⟨((w.table, w.metaRow), n), ss, false⟩ := by
  unfold Refines
  have hmeta : outcome (P.updateMeta m) w
      = if w.clock ∈ w.fails then (.error (.sqlite .failed), w.tick 1)
        else (.ok (), { w.tick 1 with metaRow := w.metaRow.map fun _ => P.bindMeta m }) :=
    outcome_statement _ w
  rw [outcome_map _ (outcome_execute _ _), hmeta]
  by_cases hfails : w.clock ∈ w.fails
  · simp [hfails, asStatement, finished, Connection.after, Alike, World.tick, Except.map]
  · simp [hfails, asStatement, metaSql, finished, Connection.after, Alike, World.tick, Except.map]

/-- The statements of the two caches' model, on any tables and at any moment, taken through
`SQLiteBase`'s steps: the insertions and updates by `execute`, the lookups and the two deletions,
which run twice where they find nothing, by `query_single`, and the query for all rows by
`query_multi`. They end as the one step that the caches' model has for each of them, with the same
result and the same tables, a failure of SQLite or of a constraint included. -/
theorem statements_refine (n : ℤ) (b : Bool) :
    (∀ (P : Policy κ τ ε) (w : World κ τ ε) (ss : List (Option (Prepared (Stored κ) (Line κ)))),
      let c : Connection (Stored κ) (Line κ) := ⟨((w.table, w.metaRow), n), ss, false⟩
      let sql := fun f => some (asStatement (decide (w.clock ∈ w.fails)) b f)
      (∀ entry, Refines ((fun k : ℕ => (k : ℤ)) <$> P.insert entry) w
        (execute Prod.snd (sql (writeSql (·.insert (P.bindRow entry)) fun _ => 1))) c)
      ∧ (∀ key size, Refines ((fun k : ℕ => (k : ℤ)) <$> Policy.updateContent key size) w
        (execute Prod.snd (sql (writeSql (·.update (bindText key) (Policy.setSize size))
          (·.count (bindText key))))) c)
      ∧ (∀ key, Refines (P.querySingle key) w (querySingle P.noRow (ofRow P.noRow P.getRow)
        (sql (selectSql fun d => ((d.1.find (bindText key)).map .inl).toList))) c)
      ∧ (∀ key, Refines (P.deleteSingle key) w (querySingle P.noRow (ofRow P.noRow P.getRow)
        (sql (deleteSql (·.find (bindText key)) (·.delete (bindText key))))) c)
      ∧ Refines P.deleteOld w (querySingle P.noRow (ofRow P.noRow P.getRow)
        (sql (deleteSql P.worst fun t => (P.worst t).elim t fun r => t.delete r.key))) c
      ∧ (∀ m, Refines (P.updateMeta m) w
        ((fun _ => ()) <$> execute Prod.snd (sql (metaSql (P.bindMeta m)))) c)
      ∧ Refines P.queryMeta w (querySingle P.noMeta (ofMeta P.noMeta P.columnMeta)
        (sql (selectSql fun d => (d.2.map .inr).toList))) c)
    ∧ (∀ (w : Lru.World) (ss : List (Option (Prepared (Stored LruCols) (Line LruCols)))),
      let c : Connection (Stored LruCols) (Line LruCols) := ⟨((w.table, w.metaRow), n), ss, false⟩
      let sql := fun f => some (asStatement (decide (w.clock ∈ w.fails)) b f)
      let getRow := ofRow Lru.policy.noRow Lru.policy.getRow
      (∀ key sequence, Refines ((fun k : ℕ => (k : ℤ)) <$> Lru.updateLruSeq key sequence) w
        (execute Prod.snd (sql (writeSql
          (·.update (bindText key) fun r => { r with cols := ⟨sequence⟩ })
          (·.count (bindText key))))) c)
      ∧ Refines Lru.queryLruNew w (querySingle Lru.policy.noRow getRow
        (sql (selectSql fun d => ((Lru.new d.1).map .inl).toList))) c
      ∧ Refines Lru.queryLruAll w (List.reverse <$> queryMulti getRow (sql (selectSql fun d =>
        (d.1.rows.insertionSort fun a b => Lru.seq a ≤ Lru.seq b).map .inl))) c)
    ∧ ∀ (w : Lfuda.World) (ss : List (Option (Prepared (Stored LfudaCols) (Line LfudaCols)))),
      let c : Connection (Stored LfudaCols) (Line LfudaCols) :=
        ⟨((w.table, w.metaRow), n), ss, false⟩
      let sql := fun f => some (asStatement (decide (w.clock ∈ w.fails)) b f)
      (∀ key timestamp freq eff,
        Refines ((fun k : ℕ => (k : ℤ)) <$> Lfuda.updateLfudaTfe key timestamp freq eff) w
        (execute Prod.snd (sql (writeSql (·.update (bindText key) fun r =>
          { r with cols := Lfuda.bindTfe ⟨timestamp, freq, eff⟩ }) (·.count (bindText key))))) c)
      ∧ (∀ key, Refines (Lfuda.queryLfudaTime key) w
        (querySingle (Lfuda.getTime none)
          (ofRow (Lfuda.getTime none) fun r => Lfuda.getTime (some r))
        (sql (selectSql fun d => ((d.1.find (bindText key)).map .inl).toList))) c)
      ∧ ∀ R : Lfuda.Resolver, Refines (Lfuda.queryLfudaWorst R) w
        (querySingle (Lfuda.policy R).noRow (ofRow (Lfuda.policy R).noRow (Lfuda.policy R).getRow)
        (sql (selectSql fun d => ((R.pick d.1).map .inl).toList))) c := by
  have hsingle : ∀ {κ τ ε : Type} [Columns κ] (P : Policy κ τ ε) (r : Option (Row κ)),
      P.getSingle r = (r.map Sum.inl).elim P.noRow (ofRow P.noRow P.getRow) := by
    rintro κ τ ε _ P (_ | r) <;> rfl
  refine ⟨fun P w ss => ⟨fun entry => refines_write _ _, fun key size => refines_write _ _,
    fun key => ?_, fun key => ?_, ?_, refines_updateMeta P, ?_⟩, fun w ss =>
    ⟨fun key sequence => refines_write _ _, ?_, ?_⟩, fun w ss =>
    ⟨fun key timestamp freq eff => refines_write _ _, fun key => ?_, fun R => ?_⟩⟩
  · exact refines_select (fun d => (d.1.find (bindText key)).map .inl) fun v => hsingle P _
  · refine refines_delete (fun t ht => delete_of_find_none ht) fun v => ?_
    rcases hv : v.table.find (bindText key) with _ | r <;> simp [outcome, hv, Policy.getSingle]
  · refine refines_delete (fun t ht => by rw [ht]; rfl) fun v => ?_
    rcases hv : P.worst v.table with _ | r <;> simp [outcome, hv]
  · refine refines_select (fun d => d.2.map .inr) fun v => ?_
    cases v.metaRow <;> rfl
  · exact refines_select (fun d => (Lru.new d.1).map .inl) fun v => hsingle Lru.policy _
  · refine refines_all fun v => ?_
    rw [List.map_map]
    rfl
  · refine refines_select (fun d => (d.1.find (bindText key)).map .inl) fun v => ?_
    cases v.table.find (bindText key) <;> rfl
  · exact refines_select (fun d => (R.pick d.1).map .inl) fun v => hsingle (Lfuda.policy R) _

end Adapter

end SqliteBase

end XCache
