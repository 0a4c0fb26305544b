import XCache.Lib.Stack
import XCache.Proofs.Recency

/-!
# How well the LRU caches

A workload is a run of `put`s in which every file has one size, with any `query` and `backup` in
between. The rows are then a part of the front of the stack of all files put, and so it is known
which `put` finds its file (`put_finds_iff`), that a larger cache finds all that a smaller one does
(`run_larger`), and how far the misses can be from those of any other policy, one that knows all
files to come included (`run_misses_le`).
-/

namespace XCache

namespace Lru

open Recency (Holds Serves fitting stack since sized misses)

/-- A call of a workload. -/
def Steady (size : Bytes → UInt64) (M : UInt64) : Op → Prop
  | .put c => c.key ≠ [] ∧ c.size = size c.key ∧ c.size ≠ 0 ∧ c.size ≤ M
  | .query _ | .backup => True
  | .renew _ _ | .update _ _ | .resize _ => False

instance (size : Bytes → UInt64) (M : UInt64) : ∀ op : Op, Decidable (Steady size M op)
  | .put _ => inferInstanceAs (Decidable (_ ∧ _))
  | .query _ | .backup => inferInstanceAs (Decidable True)
  | .renew _ _ | .update _ _ | .resize _ => inferInstanceAs (Decidable False)

/-- The file a call asks for. -/
def asked : Op → Option Bytes
  | .put c => some c.key
  | .renew _ _ | .update _ _ | .resize _ | .query _ | .backup => none

/-- The files the calls ask for, the last first. -/
def requests (ops : List Op) : List Bytes := (ops.filterMap asked).reverse

/-- A `put` that does not find its file. -/
def missed : Except Error Ret → Bool
  | .ok (.bool true) => true
  | _ => false

/-- The size of a file, as a number. -/
def bytes (size : Bytes → UInt64) (key : Bytes) : ℕ := (size key).toNat

section Step

variable {size : Bytes → UInt64} {M : UInt64} {w : World} {h : List Bytes} {b : Bool}

theorem eq_of_answer {res : Except Error Ret} (hres : answer res = some (.bool b)) :
    res = .ok (.bool b) := by
  rcases res with (e | e | _) | _ | b' | c
  · dsimp only [answer] at hres
    split_ifs at hres
    exact absurd (Option.some.inj hres) (by simp)
  · cases hres
  · cases hres
  · cases hres
  · cases hres
    rfl
  · cases hres

theorem missed_bool : missed (.ok (.bool b)) = b := by
  cases b <;> rfl

/-- What a cache object holds after the requests of `h`. -/
structure Serving (size : Bytes → UInt64) (M : UInt64) (h : List Bytes) (w : World) : Prop where
  inv : Inv Good w
  fails : w.fails = []
  holds : Holds (bytes size) M.toNat h (recency w)

theorem Serving.step_put (hs : Serving size M h w) {c : Cache} (ho : algo.Admits w (.put c))
    (hc : Steady size M (.put c)) :
    (step w (.put c)).1 = .ok (.bool (c.key ∉ fitting (bytes size) M.toNat (stack h)))
      ∧ Serving size M (c.key :: h) (step w (.put c)).2 := by
  obtain ⟨hne, hsize, hpos, hle⟩ := hc
  obtain ⟨hans, hrec⟩ := step_refines ⟨hs.inv, hs.fails⟩ (.put c) ho
  obtain ⟨⟨hinv, hfails⟩, -⟩ := step_inv w (.put c) ⟨hs.inv, hs.fails⟩ ho
  have hacc : Recency.Accepts [] (recency w) c.key (bytes size c.key) := by
    refine ⟨hne, ?_, ?_⟩
    · rw [bytes, ← hsize]
      exact fun h0 => hpos (UInt64.toNat_inj.1 h0)
    · rw [bytes, ← hsize, hs.holds.limit_eq]
      exact UInt64.le_iff_toNat_le.1 hle
  have hput := Recency.put_holds hs.holds hacc
  have hop : recencyOp (.put c) = .put c.key (bytes size c.key) := by
    rw [bytes, ← hsize]
    rfl
  rw [hop] at hans hrec
  rw [hput.1] at hans
  exact ⟨(eq_of_answer hans).trans (by congr), hinv, hfails, hrec ▸ hput.2⟩

/-- A call that asks for no file. -/
theorem Serving.step_none (hs : Serving size M h w) {op : Op} (ho : algo.Admits w op)
    (hop : Steady size M op) (hnone : asked op = none) :
    (∀ b, (step w op).1 ≠ .ok (.bool b)) ∧ Serving size M h (step w op).2 := by
  obtain ⟨hans, hrec⟩ := step_refines ⟨hs.inv, hs.fails⟩ op ho
  obtain ⟨⟨hinv, hfails⟩, -⟩ := step_inv w op ⟨hs.inv, hs.fails⟩ ho
  have habs : (Recency.step [] (recency w) (recencyOp op)).2 = recency w
      ∧ ∀ b, (Recency.step [] (recency w) (recencyOp op)).1 ≠ .bool b := by
    cases op with
    | put c => cases hnone
    | query k =>
      dsimp only [recencyOp, Recency.step]
      split_ifs <;> simp
    | backup => simp [recencyOp, Recency.step]
    | renew | update | resize => exact hop.elim
  refine ⟨fun b hb => ?_, hinv, hfails, ?_⟩
  · rw [hb] at hans
    exact habs.2 b (Option.some.inj hans).symm
  · rw [hrec, habs.1]
    exact hs.holds

end Step

section Run

variable {size : Bytes → UInt64} {M : UInt64}

theorem requests_cons (op : Op) (ops : List Op) :
    requests (op :: ops) = requests ops ++ (asked op).toList := by
  unfold requests
  rcases ha : asked op with _ | key
  · rw [List.filterMap_cons_none ha, Option.toList_none, List.append_nil]
  · rw [List.filterMap_cons_some ha, List.reverse_cons, Option.toList_some]

theorem run_serving : ∀ {w : World} {h : List Bytes} (ops : List Op), Serving size M h w →
    (∀ op ∈ ops, Steady size M op) → RunOk step algo.Admits w ops →
    Serving size M (requests ops ++ h) (run step w ops).2
      ∧ (run step w ops).1.countP missed + misses (bytes size) M.toNat h
        = misses (bytes size) M.toNat (requests ops ++ h)
  | _, _, [], hs, _, _ => ⟨hs, Nat.zero_add _⟩
  | w, h, op :: ops, hs, hops, hr => by
    have hrest := fun op' ho' => hops op' (List.mem_cons_of_mem op ho')
    have hop := hops op List.mem_cons_self
    rw [run_cons, List.countP_cons, requests_cons, List.append_assoc]
    rcases ha : asked op with _ | key
    · obtain ⟨hans, hs'⟩ := hs.step_none hr.1 hop ha
      obtain ⟨hrun, hcount⟩ := run_serving ops hs' hrest hr.2
      have hnot : missed (step w op).1 = false := by
        unfold missed
        split
        · exact absurd ‹_› (hans true)
        · rfl
      rw [hnot]
      exact ⟨hrun, hcount⟩
    · cases op with
      | put c =>
        cases ha
        obtain ⟨hans, hs'⟩ := hs.step_put hr.1 hop
        obtain ⟨hrun, hcount⟩ := run_serving ops hs' hrest hr.2
        refine ⟨hrun, ?_⟩
        rw [Option.toList_some, List.singleton_append, ← hcount, hans, missed_bool, misses]
        by_cases hmem : c.key ∈ fitting (bytes size) M.toNat (stack h)
        · simp [hmem]
        · simp only [hmem, not_false_eq_true, decide_true, if_true, if_false]
          omega
      | _ => cases ha

variable (size) in
theorem serving_start (hM : M ≠ 0) : Serving size M [] (start M) := by
  refine ⟨inv_start hM, start_fails hM, ?_, ?_⟩
  · rw [recency_start hM]
  · rw [recency_start hM]
    rfl

/-- The rows, from the newest to the oldest. -/
theorem Serving.rows {w : World} {h : List Bytes} (hs : Serving size M h w) :
    ∃ rows, outcome queryLruAll w = (.ok rows, w.tick 1)
      ∧ rows.map entry = (fitting (bytes size) M.toNat (stack h)).map (sized (bytes size)) := by
  obtain ⟨rows, hrows, hentries⟩ := queryLruAll_entries hs.inv.sound.plain hs.fails
  exact ⟨rows, hrows, hentries.trans hs.holds.entries_eq⟩

variable (size) in
/-- After a workload the rows, from the newest to the oldest, are the files put, the last first, as
many as fit; and the next `put` finds its file exactly if it has been put before, and what has been
put since fits beside it. -/
theorem put_finds_iff (hM : M ≠ 0) (ops : List Op) (c : Cache)
    (hsteady : ∀ op ∈ ops ++ [.put c], Steady size M op)
    (hops : RunOk step algo.Admits (start M) (ops ++ [.put c])) :
    let w := (run step (start M) ops).2
    (∃ rows, outcome queryLruAll w = (.ok rows, w.tick 1)
        ∧ rows.map entry
          = (fitting (bytes size) M.toNat (stack (requests ops))).map (sized (bytes size)))
      ∧ ((step w (.put c)).1 = .ok (.bool false)
        ↔ c.key ∈ requests ops
          ∧ (∑ key ∈ since c.key (requests ops), bytes size key) + c.size.toNat ≤ M.toNat)
      ∧ ((step w (.put c)).1 = .ok (.bool true)
        ↔ (step w (.put c)).1 ≠ .ok (.bool false)) := by
  intro w
  obtain ⟨hops, hc, -⟩ := runOk_append.1 hops
  obtain ⟨hs, -⟩ := run_serving ops (serving_start size hM)
    (fun op ho => hsteady op (List.mem_append_left _ ho)) hops
  rw [List.append_nil] at hs
  have hput := hsteady (.put c) (List.mem_append_right _ List.mem_cons_self)
  obtain ⟨hans, -⟩ := hs.step_put hc hput
  refine ⟨hs.rows, ?_, ?_⟩
  · have hsize : c.size.toNat = bytes size c.key := by rw [bytes, ← hput.2.1]
    rw [hans, hsize, ← Recency.mem_fitting_stack]
    simp
  · rw [hans]
    simp

theorem put_finds_iff_ten :
    let file (k : UInt8) (n : UInt64) : Op := .put ⟨[k], n, 0, [], ⟨0⟩⟩
    let size : Bytes → UInt64 := fun key => if key = [97] then 5 else 3
    let ops := [file 97 5, file 98 3, .query [97], file 99 3]
    let w := (run step (start 10) ops).2
    (∃ rows, outcome queryLruAll w = (.ok rows, w.tick 1)
        ∧ rows.map entry
          = (fitting (bytes size) (10 : UInt64).toNat (stack (requests ops))).map
              (sized (bytes size)))
      ∧ ((step w (file 97 5)).1 = .ok (.bool false)
        ↔ [97] ∈ requests ops ∧ (∑ key ∈ since [97] (requests ops), bytes size key)
          + (5 : UInt64).toNat ≤ (10 : UInt64).toNat)
      ∧ ((step w (file 97 5)).1 = .ok (.bool true)
        ↔ (step w (file 97 5)).1 ≠ .ok (.bool false)) :=
  put_finds_iff _ (by decide) _ _ (by decide) (by decide)

/-! ## A larger cache -/

variable {M' : UInt64}

theorem Steady.larger (hle : M ≤ M') {op : Op} (h : Steady size M op) : Steady size M' op := by
  cases op with
  | put c => exact ⟨h.1, h.2.1, h.2.2.1, UInt64.le_trans h.2.2.2 hle⟩
  | query | backup => trivial
  | renew | update | resize => exact h

theorem run_serving_larger (hle : M ≤ M') : ∀ {w w' : World} {h : List Bytes} (ops : List Op),
    Serving size M h w → Serving size M' h w' → (∀ op ∈ ops, Steady size M op) →
    RunOk step algo.Admits w ops → RunOk step algo.Admits w' ops →
    List.Forall₂ (fun res res' => missed res' → missed res) (run step w ops).1 (run step w' ops).1
  | _, _, _, [], _, _, _, _, _ => List.Forall₂.nil
  | w, w', h, op :: ops, hs, hs', hops, hr, hr' => by
    have hrest := fun op' ho' => hops op' (List.mem_cons_of_mem op ho')
    have hop := hops op List.mem_cons_self
    rcases ha : asked op with _ | key
    · obtain ⟨-, hnext⟩ := hs.step_none hr.1 hop ha
      obtain ⟨hans', hnext'⟩ := hs'.step_none hr'.1 (hop.larger hle) ha
      refine List.Forall₂.cons (fun hmiss => ?_)
        (run_serving_larger hle ops hnext hnext' hrest hr.2 hr'.2)
      unfold missed at hmiss
      split at hmiss
      · exact absurd ‹_› (hans' true)
      · cases hmiss
    · cases op with
      | put c =>
        obtain ⟨hans, hnext⟩ := hs.step_put hr.1 hop
        obtain ⟨hans', hnext'⟩ := hs'.step_put hr'.1 (hop.larger hle)
        refine List.Forall₂.cons ?_ (run_serving_larger hle ops hnext hnext' hrest hr.2 hr'.2)
        rw [hans, hans', missed_bool, missed_bool, decide_eq_true_eq, decide_eq_true_eq]
        exact fun hnot hmem =>
          hnot ((Recency.fitting_prefix (UInt64.le_iff_toNat_le.1 hle)).subset hmem)
      | _ => cases ha

variable (size) in
/-- Every file that a larger cache misses in a workload, a smaller one misses, too, and the rows of
the smaller one, from the newest to the oldest, are the first rows of the larger one. -/
theorem run_larger (hM : M ≠ 0) (hle : M ≤ M') (ops : List Op)
    (hsteady : ∀ op ∈ ops, Steady size M op) (hops : RunOk step algo.Admits (start M) ops)
    (hops' : RunOk step algo.Admits (start M') ops) :
    List.Forall₂ (fun res res' => missed res' → missed res) (run step (start M) ops).1
        (run step (start M') ops).1
      ∧ ∃ rows rows' w₁ w₁', outcome queryLruAll (run step (start M) ops).2 = (.ok rows, w₁)
        ∧ outcome queryLruAll (run step (start M') ops).2 = (.ok rows', w₁')
        ∧ rows.map entry <+: rows'.map entry := by
  have hM' : M' ≠ 0 := by
    rintro rfl
    exact hM (UInt64.le_antisymm hle UInt64.zero_le)
  have hs := serving_start size hM
  have hs' := serving_start size hM'
  refine ⟨run_serving_larger hle ops hs hs' hsteady hops hops', ?_⟩
  obtain ⟨rows, hrows, hentries⟩ := (run_serving ops hs hsteady hops).1.rows
  obtain ⟨rows', hrows', hentries'⟩ :=
    (run_serving ops hs' (fun op ho => (hsteady op ho).larger hle) hops').1.rows
  refine ⟨rows, rows', _, _, hrows, hrows', ?_⟩
  rw [hentries, hentries']
  exact (Recency.fitting_prefix (UInt64.le_iff_toNat_le.1 hle)).map _

theorem run_larger_ten :
    let file (k : UInt8) : Op := .put ⟨[k], 4, 0, [], ⟨0⟩⟩
    let ops := [file 97, file 98, file 99, file 97]
    List.Forall₂ (fun res res' => missed res' → missed res) (run step (start 10) ops).1
        (run step (start 12) ops).1
      ∧ ∃ rows rows' w₁ w₁', outcome queryLruAll (run step (start 10) ops).2 = (.ok rows, w₁)
        ∧ outcome queryLruAll (run step (start 12) ops).2 = (.ok rows', w₁')
        ∧ rows.map entry <+: rows'.map entry :=
  run_larger (fun _ => 4) (by decide) (by decide) _ (by decide) (by decide) (by decide)

/-! ## Another policy -/

variable (size) in
/-- In a workload of files of at least `m` bytes, the cache misses at most `M / m` times as many
files as any policy that starts empty, stores the files asked for and holds no more than `M` bytes,
even if it is told all files in advance. -/
theorem run_misses_le (hM : M ≠ 0) (ops : List Op) (hsteady : ∀ op ∈ ops, Steady size M op)
    (hops : RunOk step algo.Admits (start M) ops) {m n : ℕ} {C : Finset Bytes} (hm : 0 < m)
    (hmin : ∀ key ∈ requests ops, m ≤ bytes size key)
    (hserves : Serves (bytes size) M.toNat (requests ops) C n) :
    (run step (start M) ops).1.countP missed ≤ M.toNat / m * n := by
  obtain ⟨-, hcount⟩ := run_serving ops (serving_start size hM) hsteady hops
  rw [List.append_nil, misses, Nat.add_zero] at hcount
  rw [hcount]
  refine hserves.misses_le hm fun key hkey => ⟨hmin key hkey, ?_⟩
  obtain ⟨op, hop, hasked⟩ := List.mem_filterMap.1 (List.mem_reverse.1 hkey)
  cases op with
  | put c =>
    cases hasked
    obtain ⟨-, hsize, -, hle⟩ := hsteady _ hop
    rw [bytes, ← hsize]
    exact UInt64.le_iff_toNat_le.1 hle
  | _ => cases hasked

/-- Where the cache misses four files, a policy that keeps the first misses three. -/
theorem run_misses_le_two :
    let file (k : UInt8) : Op := .put ⟨[k], 1, 0, [], ⟨0⟩⟩
    (run step (start 2) [file 97, file 98, file 99, file 97]).1.countP missed
      ≤ (2 : UInt64).toNat / 1 * 3 :=
  run_misses_le (fun _ => 1) (by decide) _ (by decide) (by decide) Nat.one_pos (by decide)
    (.hit [[99], [98], [97]] {[97], [99]} {[97], [99]} 3 [97]
      (.miss [[98], [97]] {[97], [98]} {[97], [99]} 2 [99]
        (.miss [[97]] {[97]} {[97], [98]} 1 [98]
          (.miss [] ∅ {[97]} 0 [97] .start (by decide) (by decide) (by decide) (by decide))
          (by decide) (by decide) (by decide) (by decide))
        (by decide) (by decide) (by decide) (by decide))
      (by decide) (by decide) (by decide))

end Run

end Lru

end XCache
