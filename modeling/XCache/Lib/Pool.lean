import Mathlib

/-!
# Pools of workers

A pool is the list of the phases its workers are in, and a step moves one of them to another phase.
What the workers hold, all taken together, is what it was but for what that one held and what it
holds now (`held_move`), and so is the number of those in certain phases (`countP_move`), or
what they weigh (`sum_move_of`).
-/

namespace XCache

variable {φ τ : Type} (hold : φ → Option τ) {ws : List φ} {i : ℕ} {p q : φ} {t : τ}

/-- What the workers hold, each at most one thing. -/
def held (ws : List φ) : List τ := ws.filterMap hold

theorem held_move : ∀ {ws : List φ} {i : ℕ}, ws[i]? = some p →
    ((hold p).toList ++ held hold (ws.set i q)).Perm ((hold q).toList ++ held hold ws)
  | [], _, h => by simp at h
  | w :: ws, 0, h => by
    obtain rfl : w = p := by simpa using h
    rw [List.set_cons_zero]
    unfold held
    rcases hw : hold w with _ | t <;> rcases hq : hold q with _ | u
    · simp [hw, hq]
    · simp [hw, hq]
    · simp [hw, hq]
    · simpa [hw, hq] using List.Perm.swap u t _
  | w :: ws, i + 1, h => by
    have ih : ((hold p).toList ++ held hold (ws.set i q)).Perm ((hold q).toList ++ held hold ws) :=
      held_move (by simpa using h)
    rw [List.set_cons_succ]
    unfold held at ih ⊢
    rcases hw : hold w with _ | t
    · simpa [hw] using ih
    · simp only [List.filterMap_cons, hw]
      exact List.perm_middle.trans ((ih.cons t).trans List.perm_middle.symm)

variable {hold}

/-- A worker that holds what it held before changes nothing. -/
theorem held_stay (h : ws[i]? = some p) (hpq : hold q = hold p) :
    (held hold (ws.set i q)).Perm (held hold ws) := by
  have hm := held_move hold (q := q) h
  rw [hpq] at hm
  exact (List.perm_append_left_iff _).1 hm

theorem held_take (h : ws[i]? = some p) (hp : hold p = none) (hq : hold q = some t) :
    (held hold (ws.set i q)).Perm (t :: held hold ws) := by
  have hm := held_move hold (q := q) h
  rwa [hp, hq] at hm

theorem held_release (h : ws[i]? = some p) (hp : hold p = some t) (hq : hold q = none) :
    (t :: held hold (ws.set i q)).Perm (held hold ws) := by
  have hm := held_move hold (q := q) h
  rwa [hp, hq] at hm

theorem held_replicate {n : ℕ} (hp : hold p = none) : held hold (List.replicate n p) = [] := by
  unfold held
  exact List.filterMap_eq_nil_iff.2 fun w hw => by rwa [List.eq_of_mem_replicate hw]

/-- What the workers hold of one kind is among what they hold of any. -/
theorem held_sublist {hold' : φ → Option τ} (h : ∀ p t, hold p = some t → hold' p = some t)
    (ws : List φ) : (held hold ws).Sublist (held hold' ws) := by
  unfold held
  induction ws with
  | nil => exact List.Sublist.slnil
  | cons w ws ih =>
    rcases hw : hold w with _ | t
    · rw [List.filterMap_cons_none hw]
      exact ih.trans ((List.sublist_cons_self w ws).filterMap hold')
    · rw [List.filterMap_cons_some hw, List.filterMap_cons_some (h w t hw)]
      exact ih.cons_cons t

/-- What is taken out of a list, at any place, and the rest. -/
theorem perm_eraseIdx {l : List τ} {k : ℕ} (h : l[k]? = some t) : (t :: l.eraseIdx k).Perm l := by
  obtain ⟨hk, rfl⟩ := List.getElem?_eq_some_iff.1 h
  exact List.getElem_cons_eraseIdx_perm hk

/-- A worker after a step is the one that moved, or stays where it was. -/
theorem getElem?_move {j : ℕ} {r : φ} (h : (ws.set i q)[j]? = some r) :
    (j = i ∧ r = q) ∨ (j ≠ i ∧ ws[j]? = some r) := by
  rw [List.getElem?_set] at h
  by_cases hij : i = j
  · rw [if_pos hij] at h
    split at h
    · exact .inl ⟨hij.symm, (Option.some.inj h).symm⟩
    · simp at h
  · rw [if_neg hij] at h
    exact .inr ⟨Ne.symm hij, h⟩

theorem mem_move (h : ws[i]? = some p) : q ∈ ws.set i q :=
  List.mem_set (List.getElem?_eq_some_iff.1 h).1 q

/-- Some worker is as `P` tells still, if the one that moved is when it was. -/
theorem exists_move {P : φ → Bool} (h : ws[i]? = some p) (hpq : P p → P q)
    (hw : ∃ w ∈ ws, P w) : ∃ w ∈ ws.set i q, P w := by
  obtain ⟨w, hw, hP⟩ := hw
  obtain ⟨j, hj⟩ := List.mem_iff_getElem?.1 hw
  by_cases hij : i = j
  · obtain rfl : p = w := by rw [hij, hj] at h; exact (Option.some.inj h).symm
    exact ⟨q, mem_move h, hpq hP⟩
  · exact ⟨w, List.mem_iff_getElem?.2 ⟨j, by rwa [List.getElem?_set_ne hij]⟩, hP⟩

/-- The number of workers in the phases `P` tells, before and after a step of one of them. -/
theorem countP_move {P : φ → Bool} (h : ws[i]? = some p) :
    (ws.set i q).countP P + (if P p then 1 else 0) = ws.countP P + if P q then 1 else 0 := by
  obtain ⟨hi, hp⟩ := List.getElem?_eq_some_iff.1 h
  rw [List.countP_set hi, hp]
  have hpos : (if P p then 1 else 0) ≤ ws.countP P := by
    split
    · exact List.countP_pos_iff.2 ⟨p, List.mem_of_getElem? h, by assumption⟩
    · exact Nat.zero_le _
  omega

/-- What the workers weigh, before and after a step of one of them that leaves the weights of the
others as they are. -/
theorem sum_move_of {w w' : φ → ℕ} : ∀ {ws : List φ} {i : ℕ}, ws[i]? = some p →
    (∀ j r, j ≠ i → ws[j]? = some r → w' r = w r) →
    ((ws.set i q).map w').sum + w p = (ws.map w).sum + w' q
  | [], _, h, _ => by simp at h
  | v :: ws, 0, h, hrest => by
    obtain rfl : v = p := by simpa using h
    have hsame : ws.map w' = ws.map w := by
      refine List.map_congr_left fun r hr => ?_
      obtain ⟨j, hj⟩ := List.mem_iff_getElem?.1 hr
      exact hrest (j + 1) r (Nat.succ_ne_zero j) hj
    simp only [List.set_cons_zero, List.map_cons, List.sum_cons, hsame]
    omega
  | v :: ws, i + 1, h, hrest => by
    have ih : ((ws.set i q).map w').sum + w p = (ws.map w).sum + w' q :=
      sum_move_of (by simpa using h) fun j r hj hr =>
        hrest (j + 1) r (by omega) (by simpa using hr)
    have hv : w' v = w v := hrest 0 v (Nat.succ_ne_zero i).symm rfl
    simp only [List.set_cons_succ, List.map_cons, List.sum_cons, hv]
    omega

theorem sum_move (w : φ → ℕ) (h : ws[i]? = some p) :
    ((ws.set i q).map w).sum + w p = (ws.map w).sum + w q :=
  sum_move_of h fun _ _ _ _ => rfl

end XCache
