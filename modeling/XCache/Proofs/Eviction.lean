import XCache.Eviction
import XCache.Proofs.Table

/-!
# The eviction loop

`wp_removeCache` is the loop rule of `remove_cache`, for any world: what holds before the loop and
survives an eviction holds at each of its five exits. Where rows have keys these are the four of
`RemoveCourse` (`removeCache_course`). In a `Sound` world only two are left: the loop ends with
exactly `dropped` evicted and delivered, or a delete statement fails with some of them evicted and
none delivered (`removeCache_sound`).
-/

namespace XCache

variable {κ τ ε : Type} [Columns κ]

section Outcome

variable {α : Type} {w : World κ τ ε}

theorem outcome_statement (body : Call κ τ ε α) (w : World κ τ ε) :
    outcome (statement body) w =
      if w.clock ∈ w.fails then (.error (.sqlite .failed), w.tick 1)
      else outcome body (w.tick 1) := by
  unfold outcome statement World.tick
  split_ifs <;> rfl

theorem wp_statement {body : Call κ τ ε α} {Q : Except Error α → World κ τ ε → Prop} :
    wp (statement body) Q w ↔ (w.clock ∈ w.fails → Q (.error (.sqlite .failed)) (w.tick 1))
      ∧ (w.clock ∉ w.fails → wp body Q (w.tick 1)) := by
  unfold wp
  rw [outcome_statement]
  split_ifs with h <;> simp [h]

theorem wp_readWorld {f : World κ τ ε → α} {Q : Except Error α → World κ τ ε → Prop} :
    wp (readWorld f) Q w ↔ (w.clock ∈ w.fails → Q (.error (.sqlite .failed)) (w.tick 1))
      ∧ (w.clock ∉ w.fails → Q (.ok (f (w.tick 1))) (w.tick 1)) :=
  wp_statement

theorem wp_writeTable {f : Table κ → Option (Table κ)} {n : Table κ → ℕ}
    {Q : Except Error ℕ → World κ τ ε → Prop} :
    wp (writeTable f n) Q w ↔ (w.clock ∈ w.fails → Q (.error (.sqlite .failed)) (w.tick 1))
      ∧ (w.clock ∉ w.fails →
          (∀ t, f w.table = some t → Q (.ok (n w.table)) { w.tick 1 with table := t })
          ∧ (f w.table = none → Q (.error (.sqlite .constraint)) (w.tick 1))) := by
  refine wp_statement.trans (and_congr Iff.rfl (imp_congr_right fun _ => ?_))
  unfold wp outcome
  rcases hf : f w.table with _ | t <;> simp [World.tick, hf]

theorem wp_report {removed : List (Cache τ)} {Q : Except Error Unit → World κ τ ε → Prop} :
    wp (report removed) Q w ↔ Q (.ok ()) (w.deliver removed) := by
  unfold report removeCallback World.deliver
  split_ifs <;> exact Iff.rfl

end Outcome

namespace Policy

variable (P : Policy κ τ ε) {w : World κ τ ε}

theorem wp_deleteOld {Q : Except Error (Cache τ) → World κ τ ε → Prop} :
    wp P.deleteOld Q w ↔ (w.clock ∈ w.fails → Q (.error (.sqlite .failed)) (w.tick 1))
      ∧ (w.clock ∉ w.fails →
          (∀ r, P.worst w.table = some r →
            Q (.ok (P.getRow r)) { w.tick 1 with table := w.table.delete r.key })
          ∧ (P.worst w.table = none → Q (.ok P.noRow) (w.tick 1))) := by
  refine wp_statement.trans (and_congr Iff.rfl (imp_congr_right fun _ => ?_))
  unfold wp outcome
  rcases hf : P.worst w.table with _ | r <;> simp [World.tick, hf]

section Loop

variable {I : List (Cache τ) → Bool → World κ τ ε → Prop}
  {Q : Except Error Bool → World κ τ ε → Prop} {required : UInt64} {mark : Bytes}

/-- What each exit of the loop asks of the loop's invariant `I`, and that an eviction keeps it. -/
structure LoopRule (I : List (Cache τ) → Bool → World κ τ ε → Prop)
    (Q : Except Error Bool → World κ τ ε → Prop) (required : UInt64) (mark : Bytes) : Prop where
  stop : ∀ rem fl w, I rem fl w → ¬ w.metaMem.cacheSize + required > w.metaMem.maxSize →
    Q (.ok fl) (w.deliver rem)
  fail : ∀ rem fl w, I rem fl w → w.metaMem.cacheSize + required > w.metaMem.maxSize →
    w.clock ∈ w.fails → Q (.error (.sqlite .failed)) (w.tick 1)
  noVictim : ∀ rem fl w, I rem fl w → w.metaMem.cacheSize + required > w.metaMem.maxSize →
    P.worst w.table = none → Q (.error (.algo .emptyVictim)) ((w.tick 1).deliver rem)
  noKey : ∀ rem fl w r, I rem fl w → w.metaMem.cacheSize + required > w.metaMem.maxSize →
    P.worst w.table = some r → columnText r.key = [] →
    Q (.error (.algo .emptyVictim))
      ({ w.tick 1 with table := w.table.delete r.key }.deliver rem)
  mismatch : ∀ rem fl w r, I rem fl w → w.metaMem.cacheSize + required > w.metaMem.maxSize →
    P.worst w.table = some r → w.metaMem.cacheSize < columnUInt64 r.size →
    Q (.error (.algo .cacheSizeMismatch)) { w.tick 1 with
      table := w.table.delete r.key
      delivered := w.delivered ++ [rem ++ [P.getRow r]] }
  step : ∀ rem fl w r, I rem fl w → w.metaMem.cacheSize + required > w.metaMem.maxSize →
    w.clock ∉ w.fails → P.worst w.table = some r → columnText r.key ≠ [] →
    columnUInt64 r.size ≤ w.metaMem.cacheSize →
    I (rem ++ [P.getRow r]) (fl || decide (columnText r.key = mark)) (P.evictOne w r)

variable {P}

theorem wp_removeLoop (h : P.LoopRule I Q required mark) :
    ∀ (fuel : ℕ) (rem : List (Cache τ)) (fl : Bool) (w : World κ τ ε),
      w.table.rows.length < fuel → I rem fl w → wp (P.removeLoop required mark fuel rem fl) Q w
  | 0, _, _, _, hf, _ => absurd hf (Nat.not_lt_zero _)
  | fuel + 1, rem, fl, w, hf, hI => by
    rw [removeLoop, wp_bind, wp_get]
    simp only []
    rw [wp_ite]
    constructor
    · intro hover
      rw [wp_bind, wp_deleteOld]
      refine ⟨fun hfail => h.fail rem fl w hI hover hfail,
        fun hok => ⟨fun r hr => ?_, fun hn => ?_⟩⟩
      · simp only []
        rw [wp_ite]
        constructor
        · intro hkey
          rw [wp_bind, wp_report]
          exact h.noKey rem fl w r hI hover hr hkey
        · intro hkey
          rw [wp_ite]
          constructor
          · intro hsize
            rw [wp_bind, wp_modify]
            have hlen := Table.delete_length (P.worst_mem hr)
            refine wp_removeLoop h fuel _ _ _ ?_ (h.step rem fl w r hI hover hok hr hkey hsize)
            show (w.table.delete r.key).rows.length < fuel
            omega
          · intro hsize
            rw [wp_bind]
            exact h.mismatch rem fl w r hI hover hr (UInt64.not_le.1 hsize)
      · simp only []
        rw [wp_ite]
        refine ⟨fun _ => ?_, fun hkey => absurd rfl hkey⟩
        rw [wp_bind, wp_report]
        exact h.noVictim rem fl w hI hover hn
    · intro hover
      rw [wp_bind, wp_report]
      exact h.stop rem fl w hI hover

theorem wp_removeCache (h : P.LoopRule I Q required mark) (hI : I [] false w) :
    wp (P.removeCache required mark) Q w := by
  unfold removeCache
  rw [wp_bind, wp_get]
  simp only []
  rw [wp_ite]
  constructor
  · intro hfit
    exact h.stop [] false w hI (UInt64.not_lt.2 hfit)
  · intro _
    exact wp_removeLoop h _ _ _ _ (Nat.lt_succ_self _) hI

end Loop

/-! ## The order of eviction -/

variable {P} {t : Table κ} {r : Row κ} {D : List (Row κ)}

theorem order_none (h : P.worst t = none) : P.order t = [] := by
  rw [order, P.worst_none h]
  rfl

theorem order_some (h : P.worst t = some r) : P.order t = r :: P.order (t.delete r.key) := by
  rw [order, ← Table.delete_length (P.worst_mem h), victims, h]
  rfl

theorem order_perm : ∀ (n : ℕ) (t : Table κ), t.rows.length = n → (P.order t).Perm t.rows
  | 0, t, hn => by
    rw [List.length_eq_zero_iff] at hn
    rcases h : P.worst t with _ | r
    · rw [order_none h, hn]
    · exact absurd (P.worst_mem h) (by simp [hn])
  | n + 1, t, hn => by
    rcases h : P.worst t with _ | r
    · rw [P.worst_none h] at hn
      simp at hn
    · have hlen := Table.delete_length (P.worst_mem h)
      rw [order_some h]
      exact ((order_perm n (t.delete r.key) (by omega)).cons r).trans
        (Table.delete_perm (P.worst_mem h)).symm

theorem mem_order : r ∈ P.order t ↔ r ∈ t.rows := (order_perm _ t rfl).mem_iff

theorem prefix_order_cons (h : r :: D <+: P.order t) :
    P.worst t = some r ∧ D <+: P.order (t.delete r.key) := by
  rcases hw : P.worst t with _ | r'
  · rw [order_none hw] at h
    simp at h
  · rw [order_some hw, List.cons_prefix_cons] at h
    obtain ⟨rfl, h⟩ := h
    exact ⟨rfl, h⟩

omit [Columns κ] in
theorem shed_isPrefix (limit need : UInt64) :
    ∀ (held : UInt64) (l : List (Row κ)), shed limit need held l <+: l
  | _, [] => List.prefix_rfl
  | held, r :: rs => by
    rw [shed]
    split_ifs
    · exact List.cons_prefix_cons.2 ⟨rfl, shed_isPrefix limit need _ rs⟩
    · exact List.nil_prefix

theorem dropped_isPrefix (need : UInt64) : P.dropped w need <+: P.order w.table :=
  shed_isPrefix _ _ _ _

theorem dropped_fits {need : UInt64} (h : ¬ w.metaMem.cacheSize + need > w.metaMem.maxSize) :
    P.dropped w need = [] := by
  rw [dropped]
  rcases P.order w.table with _ | ⟨r, rs⟩
  · rfl
  · rw [shed, if_neg h]

theorem dropped_over {need : UInt64} (h : w.metaMem.cacheSize + need > w.metaMem.maxSize)
    (hr : P.worst w.table = some r) :
    P.dropped w need = r :: P.dropped (P.evictOne w r) need := by
  rw [dropped, order_some hr, shed, if_pos h]
  rfl

/-! ## What evictions change -/

@[simp] theorem evict_nil : P.evict w [] = w := rfl

theorem evict_cons : P.evict w (r :: D) = P.evict (P.evictOne w r) D := rfl

theorem evict_concat : P.evict w (D ++ [r]) = P.evictOne (P.evict w D) r := by
  rw [evict, List.foldl_append]
  rfl

@[simp] theorem evict_fails (w : World κ τ ε) (D : List (Row κ)) :
    (P.evict w D).fails = w.fails := by
  induction D generalizing w with
  | nil => rfl
  | cons r D ih => rw [evict_cons, ih]; rfl

@[simp] theorem evict_delivered (w : World κ τ ε) (D : List (Row κ)) :
    (P.evict w D).delivered = w.delivered := by
  induction D generalizing w with
  | nil => rfl
  | cons r D ih => rw [evict_cons, ih]; rfl

@[simp] theorem evict_metaRow (w : World κ τ ε) (D : List (Row κ)) :
    (P.evict w D).metaRow = w.metaRow := by
  induction D generalizing w with
  | nil => rfl
  | cons r D ih => rw [evict_cons, ih]; rfl

@[simp] theorem evict_maxSize (w : World κ τ ε) (D : List (Row κ)) :
    (P.evict w D).metaMem.maxSize = w.metaMem.maxSize := by
  induction D generalizing w with
  | nil => rfl
  | cons r D ih => rw [evict_cons, ih]; rfl

@[simp] theorem evict_clock (w : World κ τ ε) (D : List (Row κ)) :
    (P.evict w D).clock = w.clock + D.length := by
  induction D generalizing w with
  | nil => rfl
  | cons r D ih =>
    rw [evict_cons, ih, List.length_cons]
    show w.clock + 1 + D.length = _
    omega

theorem evict_rows (w : World κ τ ε) (D : List (Row κ)) :
    (P.evict w D).table.rows = w.table.rows.filter fun r => r.key ∉ D.map Row.key := by
  induction D generalizing w with
  | nil => simp
  | cons r D ih =>
    rw [evict_cons, ih]
    show (w.table.rows.filter _).filter _ = _
    rw [List.filter_filter]
    refine List.filter_congr fun r' _ => ?_
    rw [Bool.eq_iff_iff, Bool.and_eq_true, decide_eq_true_eq, decide_eq_true_eq,
      decide_eq_true_eq, List.map_cons, List.mem_cons, not_or]
    exact and_comm

theorem mem_evict {r : Row κ} :
    r ∈ (P.evict w D).table.rows ↔ r ∈ w.table.rows ∧ r.key ∉ D.map Row.key := by
  rw [evict_rows, List.mem_filter, decide_eq_true_eq]

theorem evict_subset {r : Row κ} (h : r ∈ (P.evict w D).table.rows) : r ∈ w.table.rows :=
  (mem_evict.1 h).1

theorem evict_perm (h : D <+: P.order w.table) :
    w.table.rows.Perm (D ++ (P.evict w D).table.rows) := by
  induction D generalizing w with
  | nil => rfl
  | cons r D ih =>
    obtain ⟨hr, hD⟩ := prefix_order_cons h
    rw [evict_cons, List.cons_append]
    exact (Table.delete_perm (P.worst_mem hr)).trans ((ih (w := P.evictOne w r) hD).cons r)

theorem order_evict (h : D <+: P.order w.table) :
    P.order w.table = D ++ P.order (P.evict w D).table := by
  induction D generalizing w with
  | nil => rfl
  | cons r D ih =>
    obtain ⟨hr, hD⟩ := prefix_order_cons h
    rw [evict_cons, List.cons_append, order_some hr]
    exact congrArg (r :: ·) (ih (w := P.evictOne w r) hD)

theorem evict_total (h : D <+: P.order w.table) :
    w.table.total = (D.map Row.bytes).sum + (P.evict w D).table.total := by
  rw [Table.total, ((evict_perm h).map Row.bytes).sum_eq, List.map_append, List.sum_append]
  rfl

theorem total_order (w : World κ τ ε) : ((P.order w.table).map Row.bytes).sum = w.table.total :=
  ((order_perm _ w.table rfl).map Row.bytes).sum_eq

end Policy

/-! ## The growth of a row -/

namespace Row

omit [Columns κ]

variable {r : Row κ} {n m : UInt64}

theorem bytes_lt : columnUInt64 r.size < n ↔ r.bytes < n.toNat := UInt64.lt_iff_toNat_lt

theorem growth (h : columnUInt64 r.size < n) :
    (n - columnUInt64 r.size).toNat = n.toNat - r.bytes :=
  UInt64.toNat_sub_of_le _ _ (UInt64.le_of_lt h)

theorem growth_le (h : columnUInt64 r.size < n) (hn : n ≤ m) : n - columnUInt64 r.size ≤ m := by
  rw [UInt64.le_iff_toNat_le] at hn ⊢
  rw [growth h]
  omega

end Row

/-! ## Sound worlds -/

theorem columnText_exact {key : Bytes} (h : KeyExact key) : columnText key = key := by
  refine List.takeWhile_eq_self_iff.2 fun b hb => ?_
  rw [decide_eq_true_eq]
  rintro rfl
  exact h.nulFree hb

/-- From `2 ^ 31` bytes on the length is negative as an `int`, and SQLite looks for the first
NUL. -/
theorem KeyExact.bound {key : Bytes} (h : KeyExact key) : bindText key = key := by
  have hcast : castInt key.length < 0 ∨ castInt key.length = key.length := by
    have := h.short
    unfold castInt
    rw [Int.bmod_def]
    split_ifs <;> omega
  unfold bindText
  split_ifs with hneg
  · exact columnText_exact h
  · rw [hcast.resolve_left hneg, Int.toNat_natCast, List.take_length]

theorem Table.Keyed.sub {t t' : Table κ} (h : t.Keyed) (hs : ∀ r ∈ t'.rows, r ∈ t.rows) :
    t'.Keyed :=
  ⟨fun r hr => h.exact r (hs r hr), fun r hr => h.nonempty r (hs r hr)⟩

theorem Table.Keyed.getRow_key {P : Policy κ τ ε} {t : Table κ} (h : t.Keyed) {r : Row κ}
    (hr : r ∈ t.rows) : (P.getRow r).key = r.key :=
  columnText_exact (h.exact r hr)

theorem Table.Plain.keyed {t : Table κ} (h : t.Plain) : t.Keyed := ⟨h.exact, h.nonempty⟩

theorem Table.Plain.sub {t t' : Table κ} (h : t.Plain) (hs : ∀ r ∈ t'.rows, r ∈ t.rows) :
    t'.Plain :=
  ⟨fun r hr => h.exact r (hs r hr), fun r hr => h.nonempty r (hs r hr),
    fun r hr => h.pos r (hs r hr)⟩

theorem Table.Plain.getRow_key {P : Policy κ τ ε} {t : Table κ} (h : t.Plain) {r : Row κ}
    (hr : r ∈ t.rows) : (P.getRow r).key = r.key :=
  h.keyed.getRow_key hr

theorem Table.Plain.getRow_key_ne {P : Policy κ τ ε} {t : Table κ} (h : t.Plain) {r : Row κ}
    (hr : r ∈ t.rows) : (P.getRow r).key ≠ [] := by
  rw [h.getRow_key hr]
  exact h.nonempty r hr

theorem Table.total_nil {t : Table κ} (h : t.rows = []) : t.total = 0 := by
  rw [Table.total, h]
  rfl

theorem Table.bytes_le_total {t : Table κ} {r : Row κ} (h : r ∈ t.rows) : r.bytes ≤ t.total := by
  rw [Table.total, Table.delete_sum Row.bytes h]
  omega

theorem Sound.size_le {w : World κ τ ε} (h : Sound w) {r : Row κ} (hr : r ∈ w.table.rows) :
    columnUInt64 r.size ≤ w.metaMem.cacheSize := by
  have hle := Table.bytes_le_total hr
  rw [h.total] at hle
  exact UInt64.le_iff_toNat_le.2 hle

theorem Sound.cacheSize_nil {w : World κ τ ε} (h : Sound w) (h0 : w.table.rows = []) :
    w.metaMem.cacheSize = 0 := by
  rw [← UInt64.toNat_inj, ← h.total, Table.total_nil h0]
  rfl

namespace Policy

variable {P : Policy κ τ ε} {w : World κ τ ε} {r : Row κ} {D : List (Row κ)}

theorem worst_ne_none {need : UInt64} (h : Sound w) (hneed : need ≤ w.metaMem.maxSize)
    (hover : w.metaMem.cacheSize + need > w.metaMem.maxSize) : P.worst w.table ≠ none := by
  intro hn
  rw [h.cacheSize_nil (P.worst_none hn), UInt64.zero_add] at hover
  exact UInt64.not_lt.2 hneed hover

theorem sound_evictOne (h : Sound w) (hr : P.worst w.table = some r) :
    Sound (P.evictOne w r) where
  plain := h.plain.sub fun _ => Table.delete_subset
  total := by
    have hle := h.size_le (P.worst_mem hr)
    have hsum := Table.delete_sum Row.bytes (P.worst_mem hr)
    show ((w.table.delete r.key).rows.map Row.bytes).sum
      = (w.metaMem.cacheSize - columnUInt64 r.size).toNat
    rw [UInt64.toNat_sub_of_le _ _ hle, ← h.total, Table.total, hsum, Row.bytes]
    omega
  limit := h.limit

theorem sound_evict (h : Sound w) (hD : D <+: P.order w.table) : Sound (P.evict w D) := by
  induction D generalizing w with
  | nil => exact h
  | cons r D ih =>
    obtain ⟨hr, hD⟩ := prefix_order_cons hD
    exact ih (sound_evictOne h hr) hD

/-! ## `remove_cache` -/

variable {need : UInt64} {mark : Bytes}

theorem evicts_concat : P.Evicts need w (D ++ [r]) ↔
    P.Evicts need w D ∧ Over need (P.evict w D) ∧ (P.evict w D).clock ∉ w.fails
      ∧ P.worst (P.evict w D).table = some r
      ∧ columnUInt64 r.size ≤ (P.evict w D).metaMem.cacheSize := by
  induction D generalizing w with
  | nil => simp [Evicts]
  | cons r' D ih =>
    have hf : (P.evictOne w r').fails = w.fails := rfl
    simp only [List.cons_append, Evicts, evict_cons, ih, hf, and_assoc]

/-- The rows the loop evicts come first in the order. -/
theorem Evicts.isPrefix (h : P.Evicts need w D) : D <+: P.order w.table := by
  induction D generalizing w with
  | nil => exact List.nil_prefix
  | cons r D ih =>
    obtain ⟨-, -, hr, -, h⟩ := h
    rw [order_some hr]
    exact List.cons_prefix_cons.2 ⟨rfl, ih h⟩

theorem Evicts.dropped (h : P.Evicts need w D) :
    P.dropped w need = D ++ P.dropped (P.evict w D) need := by
  induction D generalizing w with
  | nil => rfl
  | cons r D ih =>
    obtain ⟨hover, -, hr, -, h⟩ := h
    rw [dropped_over hover hr, evict_cons, ih h]
    rfl

theorem Clears.dropped (h : P.Clears need w D) : P.dropped w need = D := by
  rw [h.1.dropped, dropped_fits h.2, List.append_nil]

theorem Clears.shrink (h : P.Clears need w D) : P.cleared w D = P.shrink w need := by
  rw [Policy.shrink, h.dropped, cleared]

theorem removeCache_course (need : UInt64) (mark : Bytes) (hw : w.table.Keyed) :
    wp (P.removeCache need mark) (P.RemoveCourse w need mark) w := by
  let I : List (Cache τ) → Bool → World κ τ ε → Prop := fun rem fl v =>
    ∃ D, P.Evicts need w D ∧ v = P.evict w D ∧ rem = D.map P.getRow
      ∧ fl = D.any fun r => r.key = mark
  refine wp_removeCache (I := I) ?_ ⟨[], trivial, rfl, rfl, rfl⟩
  constructor
  case stop =>
    rintro rem fl v ⟨D, hD, rfl, rfl, rfl⟩ hfit
    exact .cleared D ⟨hD, hfit⟩
  case fail =>
    rintro rem fl v ⟨D, hD, rfl, rfl, rfl⟩ hover hfail
    rw [evict_fails] at hfail
    exact .failed D hD hover hfail
  case noVictim =>
    rintro rem fl v ⟨D, hD, rfl, rfl, rfl⟩ hover hv
    exact .noVictim D hD hover hv
  case noKey =>
    rintro rem fl v r ⟨D, hD, rfl, rfl, rfl⟩ hover hr hkey
    have hmem := evict_subset (P.worst_mem hr)
    rw [columnText_exact (hw.exact r hmem)] at hkey
    exact absurd hkey (hw.nonempty r hmem)
  case mismatch =>
    rintro rem fl v r ⟨D, hD, rfl, rfl, rfl⟩ hover hr hlt
    exact .mismatch D r hD hover hr hlt
  case step =>
    rintro rem fl v r ⟨D, hD, rfl, rfl, rfl⟩ hover hok hr hkey hsize
    rw [evict_fails] at hok
    refine ⟨D ++ [r], evicts_concat.2 ⟨hD, hover, hok, hr, hsize⟩, evict_concat.symm, by simp, ?_⟩
    rw [columnText_exact (hw.exact r (evict_subset (P.worst_mem hr)))]
    simp

/-- In a sound world `remove_cache` makes room for a need within `max_size`, unless a delete
statement fails. -/
theorem RemoveCourse.sound {res : Except Error Bool} {w' : World κ τ ε}
    (h : P.RemoveCourse w need mark res w') (hw : Sound w) (hneed : need ≤ w.metaMem.maxSize) :
    (res = .ok ((P.dropped w need).any fun v => v.key = mark) ∧ w' = P.shrink w need)
      ∨ ∃ D, D <+: P.dropped w need ∧ D ≠ P.dropped w need ∧ res = .error (.sqlite .failed)
        ∧ w.clock + D.length ∈ w.fails ∧ w' = (P.evict w D).tick 1 := by
  have hrow : ∀ {D : List (Row κ)}, P.Evicts need w D → Over need (P.evict w D) →
      P.worst (P.evict w D).table ≠ none := fun hD hover =>
    worst_ne_none (sound_evict hw hD.isPrefix) (by rw [evict_maxSize]; exact hneed) hover
  cases h with
  | cleared D hD => exact .inl ⟨by rw [hD.dropped], hD.shrink⟩
  | failed D hD hover hfail =>
    rw [evict_clock] at hfail
    refine .inr ⟨D, ?_, fun he => ?_, rfl, hfail, rfl⟩
    · rw [hD.dropped]
      exact List.prefix_append _ _
    · rcases hv : P.worst (P.evict w D).table with _ | r
      · exact hrow hD hover hv
      · have hd := hD.dropped
        rw [dropped_over hover hv, ← he] at hd
        simp at hd
  | noVictim D hD hover hv => exact absurd hv (hrow hD hover)
  | mismatch D r hD hover hr hlt =>
    have hle := (sound_evict hw hD.isPrefix).size_le (P.worst_mem hr)
    exact absurd hlt (UInt64.not_lt.2 hle)

/-- What `remove_cache` does in a sound world, to make room for a need within `max_size`. -/
theorem removeCache_sound (mark : Bytes) (hw : Sound w) (hneed : need ≤ w.metaMem.maxSize) :
    wp (P.removeCache need mark) (fun res w' =>
      (res = .ok ((P.dropped w need).any fun v => v.key = mark) ∧ w' = P.shrink w need)
      ∨ ∃ D, D <+: P.dropped w need ∧ D ≠ P.dropped w need ∧ res = .error (.sqlite .failed)
        ∧ w.clock + D.length ∈ w.fails ∧ w' = (P.evict w D).tick 1) w :=
  wp_mono (removeCache_course need mark hw.plain.keyed) fun _ _ h => h.sound hw hneed

end Policy

end XCache
