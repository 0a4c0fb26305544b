import XCache.Asserting
import XCache.Proofs.Backends

/-!
# The assertions hold on any database

Neither the accounting nor any order of the numbers is needed for the subtractions: the guards of
the loops are enough. `Tolerant` says what a class has to keep of its own columns for its other
assertions, and is asked of no size and no `cache_size`; then every call upholds its assertions in
every world that has it (`call_upholds`).
-/

namespace XCache

variable {κ τ ε α : Type} [Columns κ]

/-- The rows of `t'` have columns of rows of `t`. -/
def ColsWithin (t' t : Table κ) : Prop := ∀ r ∈ t'.rows, ∃ r₀ ∈ t.rows, r.cols = r₀.cols

theorem colsWithin_delete (t : Table κ) (key : Bytes) : ColsWithin (t.delete key) t :=
  fun r hr => ⟨r, Table.delete_subset hr, rfl⟩

theorem colsWithin_setSize {t t' : Table κ} {key : Bytes} {n : UInt64}
    (h : t.update key (Policy.setSize n) = some t') : ColsWithin t' t := by
  intro r hr
  obtain ⟨r₀, hr₀, rfl⟩ := (Table.mem_update h).1 hr
  exact ⟨r₀, hr₀, by split_ifs <;> rfl⟩

/-- The world has what `I` says of its table and its third meta field. -/
def Has (I : Table κ → ε → Prop) {β : Type} (_ : Except Error β) (w : World κ τ ε) : Prop :=
  I w.table w.metaMem.extra

namespace Policy

variable (P : Policy κ τ ε) {I : Table κ → ε → Prop} {w : World κ τ ε}

/-- What every policy keeps of the rows it does not delete. -/
structure Keeps (I : Table κ → ε → Prop) : Prop where
  rows : ∀ {t t' x}, I t x → ColsWithin t' t → I t' x
  evicted : ∀ {t x c}, I t x → I t (P.evicted c x)

variable {P} (K : P.Keeps I)

theorem deleteOld_frame (w : World κ τ ε) : wp P.deleteOld (fun res w' =>
    w'.metaMem = w.metaMem ∧ ColsWithin w'.table w.table ∧ res ≠ .error .unfinished
      ∧ ∀ entry, res = .ok entry → entry.key ≠ [] →
        w'.table.rows.length < w.table.rows.length) w := by
  refine P.wp_deleteOld.2 ⟨fun _ => ?_, fun _ => ⟨fun r hr => ?_, fun _ => ?_⟩⟩
  · exact ⟨rfl, fun r hr => ⟨r, hr, rfl⟩, nofun, nofun⟩
  · refine ⟨rfl, colsWithin_delete _ _, nofun, fun _ _ _ => ?_⟩
    have := Table.delete_length (P.worst_mem hr)
    show (w.table.delete r.key).rows.length < _
    omega
  · refine ⟨rfl, fun r hr => ⟨r, hr, rfl⟩, nofun, fun entry he hk => ?_⟩
    cases he
    exact absurd rfl hk

theorem report_upholds {l : List (Cache τ)} (hI : I w.table w.metaMem.extra) :
    Upholds .unfinished (report l) (report l) (Has I) w := by
  refine .of_wp (wp_report.2 ⟨nofun, ?_⟩)
  unfold Has
  rw [deliver_table, deliver_metaMem]
  exact hI

theorem querySingle_upholds (key : Bytes) (hI : I w.table w.metaMem.extra) :
    Upholds .unfinished (P.querySingle key) (P.querySingle key) (Has I) w :=
  .of_wp (wp_querySingle.2 ⟨fun _ => ⟨nofun, hI⟩, fun _ => ⟨nofun, hI⟩⟩)

theorem query_upholds (key : Bytes) (hI : I w.table w.metaMem.extra) :
    Upholds .unfinished (P.query key) (P.query key) (Has I) w := by
  unfold query
  exact .throwIf (fun _ => ⟨by simp, hI⟩) fun _ => querySingle_upholds key hI

theorem backup_upholds (hI : I w.table w.metaMem.extra) :
    Upholds .unfinished P.backup P.backup (Has I) w := by
  unfold backup
  exact .get (.of_wp (wp_statement.2 ⟨fun _ => ⟨nofun, hI⟩, fun _ => ⟨nofun, hI⟩⟩))

include K

theorem removeLoop_upholds (required : UInt64) (mark : Bytes) :
    ∀ (fuel : ℕ) (rem : List (Cache τ)) (fl : Bool) (w : World κ τ ε),
      w.table.rows.length < fuel → I w.table w.metaMem.extra →
      Upholds .unfinished (P.removeLoopAsserting required mark fuel rem fl)
        (P.removeLoop required mark fuel rem fl) (Has I) w
  | 0, _, _, _, hf, _ => absurd hf (Nat.not_lt_zero _)
  | fuel + 1, rem, fl, w, hf, hI => by
    unfold removeLoop removeLoopAsserting
    refine .get (.ite (fun hover => ?_) fun hfit => ?_)
    · have hdel := wp_mono (deleteOld_frame (P := P) w) fun res w' h =>
        show res ≠ .error .unfinished ∧ _ from ⟨h.2.2.1, h⟩
      refine .bind (.of_wp hdel) (fun e w' h => ?_) fun entry w' h => ?_
      · show I w'.table w'.metaMem.extra
        rw [h.1]
        exact K.rows hI h.2.1
      obtain ⟨hmeta, hcols, -, hlen⟩ := h
      have hI' : I w'.table w'.metaMem.extra := hmeta ▸ K.rows hI hcols
      refine .ite (fun hk => ?_) fun hk => .ite (fun hsize => ?_) fun hsize => ?_
      · exact .bind (report_upholds hI') (fun _ _ h => h) fun _ w'' h => .throw (by simp) h
      · have hlt := hlen entry rfl hk
        refine .assert (by rw [hmeta]; exact hsize) (.modify ?_)
        refine removeLoop_upholds required mark fuel _ _ _ ?_ (K.evicted hI')
        show w'.table.rows.length < fuel
        omega
      · exact .throw (by simp) hI'
    · exact .bind (report_upholds hI) (fun _ _ h => h) fun _ w' h => .pure h

theorem removeCache_upholds (required : UInt64) (mark : Bytes) (hI : I w.table w.metaMem.extra) :
    Upholds .unfinished (P.removeCacheAsserting required mark) (P.removeCache required mark)
      (Has I) w := by
  unfold removeCache removeCacheAsserting
  refine .get (.ite (fun _ => .pure hI) fun _ => ?_)
  exact removeLoop_upholds K required mark _ _ _ w (Nat.lt_succ_self _) hI

theorem updateSize_upholds (cache : Cache τ) (newSize : UInt64) (hI : I w.table w.metaMem.extra) :
    Upholds .unfinished (P.updateSizeAsserting cache newSize) (P.updateSize cache newSize)
      (Has I) w := by
  unfold updateSize updateSizeAsserting
  refine .ite (fun _ => .pure hI) fun _ => .bind (Q := Has I) ?_ (fun _ _ h => h) ?_
  · exact .ite (fun _ => removeCache_upholds K _ _ hI) fun _ => .pure hI
  · intro aborted v hv
    refine .ite (fun _ => .pure hv) fun _ => .get ?_
    refine .throwIf (fun _ => ⟨nofun, hv⟩) fun hsize => ?_
    refine .assert (not_not.1 hsize) (.modify (.bind (Q := Has I) (.of_wp ?_) (fun _ _ h => h) ?_))
    · refine wp_writeTable.2 ⟨fun _ => ⟨nofun, hv⟩, fun _ => ⟨fun t ht => ⟨nofun, ?_⟩,
        fun _ => ⟨nofun, hv⟩⟩⟩
      exact K.rows hv (colsWithin_setSize ht)
    · intro changed v' hv'
      exact .of_wp (wp_throwIf.2 ⟨fun _ => ⟨nofun, hv'⟩, fun _ => ⟨nofun, hv'⟩⟩)

theorem update_upholds (key : Bytes) (newSize : UInt64) (hI : I w.table w.metaMem.extra) :
    Upholds .unfinished (P.updateAsserting key newSize) (P.update key newSize) (Has I) w := by
  unfold update updateAsserting
  refine .throwIf (fun _ => ⟨nofun, hI⟩) fun _ => .get (.throwIf (fun _ => ⟨nofun, hI⟩) fun _ => ?_)
  refine .bind (querySingle_upholds key hI) (fun _ _ h => h) fun entry v hv => ?_
  refine .ite (fun _ => ?_) fun _ => .pure hv
  exact .bind (updateSize_upholds K entry newSize hv) (fun _ _ h => h) fun _ v' hv' =>
    .pure hv'

theorem resize_upholds (newSize : UInt64) (hI : I w.table w.metaMem.extra) :
    Upholds .unfinished (P.resizeAsserting newSize) (P.resize newSize) (Has I) w := by
  unfold resize resizeAsserting
  refine .throwIf (fun _ => ⟨nofun, hI⟩) fun _ => .modify ?_
  exact .bind (removeCache_upholds K 0 [] hI) (fun _ _ h => h) fun _ v hv => .pure hv

end Policy

namespace Algo

variable {A : Algo κ τ ε α} {S : Asserts (κ := κ) (τ := τ) (ε := ε) (α := α)}
  {I : Table κ → ε → Prop} {ok : ε → Prop} {w : World κ τ ε}

/-- What a class keeps for its own assertions to hold, while its counter does not overflow. -/
structure Tolerant (A : Algo κ τ ε α) (S : Asserts (κ := κ) (τ := τ) (ε := ε) (α := α))
    (I : Table κ → ε → Prop) (ok : ε → Prop) : Prop where
  keeps : A.toPolicy.Keeps I
  fresh : ∀ {w}, I w.table w.metaMem.extra → ok w.metaMem.extra → S.fresh w
  insert : ∀ {t t' x c}, I t x → ok x → t.insert (A.newRow x c) = some t' → I t' (A.inserted x)
  renew : ∀ {w} key a, I w.table w.metaMem.extra → (key ≠ [] → ok w.metaMem.extra) →
    Upholds .unfinished (S.renew key a) (A.renew key a) (Has I) w

variable (T : Tolerant A S I ok)

include T

theorem insert_upholds {c : Cache τ} (hI : I w.table w.metaMem.extra) (hok : ok w.metaMem.extra) :
    Upholds .unfinished
      (do
        let w ← get
        let tmp : Cache τ := { c with fields := A.stamp w.metaMem.extra c.fields }
        assertion S.fresh
        let inserted ← A.insert tmp
        throwIf (inserted = 0) (.algo .fatalLogic)
        modify fun w => { w with metaMem := { w.metaMem with
          extra := A.inserted w.metaMem.extra, cacheSize := w.metaMem.cacheSize + tmp.size } }
        return true)
      (do
        let w ← get
        let tmp : Cache τ := { c with fields := A.stamp w.metaMem.extra c.fields }
        let inserted ← A.insert tmp
        throwIf (inserted = 0) (.algo .fatalLogic)
        modify fun w => { w with metaMem := { w.metaMem with
          extra := A.inserted w.metaMem.extra, cacheSize := w.metaMem.cacheSize + tmp.size } }
        return true) (Has I) w := by
  refine .get (.assert (T.fresh hI hok) ?_)
  refine .bind (Q := fun res w' => match res with
    | .ok n => n = 1 ∧ I w'.table (A.inserted w'.metaMem.extra)
    | .error _ => I w'.table w'.metaMem.extra) (.of_wp ?_) (fun _ _ h => h) fun n v hv => ?_
  · refine wp_writeTable.2 ⟨fun _ => ⟨nofun, hI⟩, fun _ => ⟨fun t ht => ⟨nofun, rfl, ?_⟩,
      fun _ => ⟨nofun, hI⟩⟩⟩
    exact T.insert hI hok ht
  · obtain ⟨rfl, hv⟩ := hv
    exact .throwIf (fun h => absurd h one_ne_zero) fun _ => .pure hv

theorem put_upholds {c : Cache τ} (hI : I w.table w.metaMem.extra) (hc : A.Counts ok w (.put c)) :
    Upholds .unfinished (A.putAsserting S c) (A.put c) (Has I) w := by
  unfold put putAsserting
  refine .throwIf (fun _ => ⟨nofun, hI⟩) fun hk => .get ?_
  refine .throwIf (fun _ => ⟨nofun, hI⟩) fun hz => ?_
  have hacc : Accepts w c.key c.size := accepts_of_checks hk hz
  obtain ⟨hfound, hnew⟩ := hc hacc
  -- the query tells which of the two counts is asked for
  refine .bind (Q := fun res w' => Has I res w' ∧ ∀ entry, res = .ok entry →
    w' = w.tick 1 ∧ entry = A.getSingle (w.table.find (bindText c.key)))
    (.of_wp (Policy.wp_querySingle.2 ⟨fun _ => ⟨nofun, hI, nofun⟩, fun _ => ⟨nofun, hI, ?_⟩⟩))
    (fun _ _ h => h.1) fun entry v hv => ?_
  · rintro entry ⟨⟩
    exact ⟨rfl, rfl⟩
  obtain ⟨hv, hq⟩ := hv
  obtain ⟨rfl, rfl⟩ := hq entry rfl
  refine .ite (fun h0 => ?_) fun h0 => ?_
  · have hroom := Policy.removeCache_upholds T.keeps c.size [] hv
    refine .bind (Q := fun res v => Has I res v ∧ (res.isOk → ok v.metaMem.extra))
      ⟨hroom.1, hroom.2.1, hroom.2.2, hnew h0⟩ (fun _ _ h => h.1) fun _ v h => ?_
    exact insert_upholds T h.1 (h.2 rfl)
  · refine .bind (T.renew _ _ hv fun _ => hfound h0) (fun _ _ h => h) fun renewed v hv => ?_
    refine .throwIf (fun _ => ⟨nofun, hv⟩) fun _ => .ite (fun _ => ?_) fun _ => .pure hv
    exact .bind (Policy.updateSize_upholds T.keeps _ _ hv) (fun _ _ h => h) fun _ v' hv' =>
      .pure hv'

theorem call_upholds (op : Op τ α) (hI : I w.table w.metaMem.extra) (hc : A.Counts ok w op) :
    Upholds .unfinished (A.callAsserting S op) (A.call op) (Has I) w := by
  have hmap : ∀ {β : Type} {x y : Call κ τ ε β} {f : β → Ret τ},
      Upholds .unfinished x y (Has I) w → Upholds .unfinished (f <$> x) (f <$> y) (Has I) w := by
    intro β x y f h
    rw [map_eq_pure_bind, map_eq_pure_bind]
    exact h.bind (fun _ _ h => h) fun _ _ h => .pure h
  cases op with
  | put c => exact hmap (put_upholds T hI hc)
  | renew k a => exact hmap (T.renew k a hI hc)
  | update k n => exact hmap (Policy.update_upholds T.keeps k n hI)
  | resize n => exact hmap (Policy.resize_upholds T.keeps n hI)
  | query k => exact hmap (Policy.query_upholds k hI)
  | backup => exact hmap (Policy.backup_upholds hI)

end Algo

end XCache
