import XCache.Lib.Recency

/-!
# The stack of a recency list

Requests for keys, each of a size of its own, on a recency list that starts empty. What the list
holds are the first keys of its stack, that is, of all keys asked for, the last first, as many as
fit (`put_holds`). So a request finds its key exactly if what has been asked for since then fits
beside it (`mem_fitting_stack`), and a longer list holds what a shorter one holds
(`fitting_prefix`). No policy that stores what it is asked for misses fewer than one request where
the recency list misses as many as the keys it has room for (`Serves.misses_le`).

Requests are listed with the last first.
-/

namespace XCache

namespace Recency

variable {κ : Type} (size : κ → ℕ)

/-- A key with its size. -/
def sized (k : κ) : κ × ℕ := (k, size k)

/-- The sum of the sizes. -/
def weight (l : List κ) : ℕ := (l.map size).sum

/-- The first keys of a list, as many as fit. -/
def fitting : ℕ → List κ → List κ
  | _, [] => []
  | limit, k :: l => if size k ≤ limit then k :: fitting (limit - size k) l else []

section Fitting

variable {size : κ → ℕ} {limit limit' need : ℕ} {l p q : List κ} {k : κ}

@[simp] theorem weight_nil : weight size [] = 0 := rfl

@[simp] theorem weight_cons : weight size (k :: l) = size k + weight size l := by
  simp [weight]

@[simp] theorem weight_append : weight size (p ++ q) = weight size p + weight size q := by
  simp [weight]

theorem total_sized (l : List κ) : total (l.map (sized size)) = weight size l := by
  rw [total, List.map_map]
  rfl

variable (size) in
/-- What fits, and what comes next does not. -/
theorem fitting_spec : ∀ (limit : ℕ) (l : List κ), ∃ q, l = fitting size limit l ++ q
    ∧ weight size (fitting size limit l) ≤ limit
    ∧ ∀ k ∈ q.head?, limit < weight size (fitting size limit l) + size k
  | limit, [] => ⟨[], rfl, Nat.zero_le _, by simp⟩
  | limit, k :: l => by
    unfold fitting
    split_ifs with hk
    · obtain ⟨q, hl, hw, hq⟩ := fitting_spec (limit - size k) l
      refine ⟨q, ?_, ?_, fun k' hk' => ?_⟩
      · rw [List.cons_append, ← hl]
      · rw [weight_cons]
        omega
      · have := hq k' hk'
        rw [weight_cons]
        omega
    · refine ⟨k :: l, rfl, Nat.zero_le _, fun k' hk' => ?_⟩
      rw [List.head?_cons, Option.mem_some_iff] at hk'
      subst hk'
      rw [weight_nil]
      omega

theorem fitting_eq : ∀ {limit : ℕ} {p : List κ}, weight size p ≤ limit →
    (∀ k ∈ q.head?, limit < weight size p + size k) → fitting size limit (p ++ q) = p
  | limit, [], _, hq => by
    rcases q with _ | ⟨k, q⟩
    · rfl
    · have := hq k rfl
      rw [weight_nil, Nat.zero_add] at this
      rw [List.nil_append, fitting, if_neg (by omega)]
  | limit, k :: p, hp, hq => by
    rw [weight_cons] at hp
    have ih : fitting size (limit - size k) (p ++ q) = p := by
      refine fitting_eq (by omega) fun k' hk' => ?_
      have := hq k' hk'
      rw [weight_cons] at this
      omega
    rw [List.cons_append, fitting, if_pos (by omega), ih]

theorem fitting_isPrefix : fitting size limit l <+: l := by
  obtain ⟨q, hl, -⟩ := fitting_spec size limit l
  exact ⟨q, hl.symm⟩

theorem weight_fitting_le : weight size (fitting size limit l) ≤ limit := by
  obtain ⟨-, -, hw, -⟩ := fitting_spec size limit l
  exact hw

/-- Every part of the front that fits is in what fits. -/
theorem prefix_fitting (h : p <+: l) (hw : weight size p ≤ limit) :
    p <+: fitting size limit l := by
  obtain ⟨q, rfl⟩ := h
  induction p generalizing limit with
  | nil => exact List.nil_prefix
  | cons k p ih =>
    rw [weight_cons] at hw
    rw [List.cons_append, fitting, if_pos (by omega), List.cons_prefix_cons]
    exact ⟨rfl, ih (by omega)⟩

theorem fitting_prefix (h : limit ≤ limit') :
    fitting size limit l <+: fitting size limit' l :=
  prefix_fitting fitting_isPrefix (weight_fitting_le.trans h)

/-- To make room is to keep what fits beside what is needed. -/
theorem shed_sized (hneed : need ≤ limit) : ∀ l : List κ,
    (shed limit need ((l.map (sized size)).reverse)).2.reverse
      = (fitting size (limit - need) l).map (sized size) := by
  intro l
  induction l using List.reverseRecOn with
  | nil => rfl
  | append_singleton l k ih =>
    rw [List.map_append, List.reverse_append, List.map_singleton, List.reverse_singleton,
      List.singleton_append, shed]
    have htotal : total (sized size k :: (l.map (sized size)).reverse)
        = weight size (l ++ [k]) := by
      have hrev : total (l.map (sized size)).reverse = total (l.map (sized size)) := by
        rw [total, total, List.map_reverse, List.sum_reverse]
      have hcons : total (sized size k :: (l.map (sized size)).reverse)
          = size k + total (l.map (sized size)).reverse := by
        simp [total, sized]
      rw [hcons, hrev, total_sized, weight_append, weight_cons, weight_nil]
      omega
    rw [htotal]
    split_ifs with hover
    · rw [ih]
      obtain ⟨q, hl, hw, hq⟩ := fitting_spec size (limit - need) l
      have hnext : ∀ k' ∈ (q ++ [k]).head?,
          limit - need < weight size (fitting size (limit - need) l) + size k' := by
        intro k' hk'
        rcases q with _ | ⟨j, q⟩
        · rw [List.nil_append, List.head?_cons, Option.mem_some_iff] at hk'
          subst hk'
          rw [List.append_nil] at hl
          rw [← hl]
          rw [weight_append, weight_cons, weight_nil] at hover
          omega
        · exact hq k' hk'
      conv_rhs => rw [hl, List.append_assoc, fitting_eq hw hnext]
    · have hfit : fitting size (limit - need) (l ++ [k]) = l ++ [k] := by
        have hall : fitting size (limit - need) (l ++ [k] ++ []) = l ++ [k] :=
          fitting_eq (by omega) (by simp)
        rwa [List.append_nil] at hall
      rw [hfit]
      simp

end Fitting

variable [DecidableEq κ]

/-- All keys asked for, the last first. -/
def stack : List κ → List κ
  | [] => []
  | k :: h => k :: (stack h).filter (· ≠ k)

/-- The keys asked for since the last request for `k`. -/
def since (k : κ) (h : List κ) : Finset κ := (h.takeWhile (· ≠ k)).toFinset

/-- The requests that do not find their key. -/
def misses (limit : ℕ) : List κ → ℕ
  | [] => 0
  | k :: h => misses limit h + if k ∈ fitting size limit (stack h) then 0 else 1

section Stack

variable {size : κ → ℕ} {limit : ℕ} {h : List κ} {j k : κ}

@[simp] theorem mem_stack : ∀ {h : List κ}, k ∈ stack h ↔ k ∈ h
  | [] => Iff.rfl
  | j :: h => by
    rw [stack, List.mem_cons, List.mem_cons, List.mem_filter, mem_stack]
    by_cases hk : k = j <;> simp [hk]

theorem stack_nodup : ∀ h : List κ, (stack h).Nodup
  | [] => List.nodup_nil
  | k :: h => List.nodup_cons.2 ⟨by simp, (stack_nodup h).filter _⟩

theorem takeWhile_filter {l : List κ} (hjk : j ≠ k) :
    (l.filter (· ≠ j)).takeWhile (· ≠ k) = (l.takeWhile (· ≠ k)).filter (· ≠ j) := by
  induction l with
  | nil => rfl
  | cons i l ih =>
    by_cases hik : i = k
    · subst hik
      rw [List.filter_cons_of_pos (by simpa using hjk.symm), List.takeWhile_cons_of_neg (by simp),
        List.takeWhile_cons_of_neg (by simp), List.filter_nil]
    · rw [List.takeWhile_cons_of_pos (by simpa using hik)]
      by_cases hij : i = j
      · rw [List.filter_cons_of_neg (by simpa using hij),
          List.filter_cons_of_neg (by simpa using hij), ih]
      · rw [List.filter_cons_of_pos (by simpa using hij),
          List.filter_cons_of_pos (by simpa using hij),
          List.takeWhile_cons_of_pos (by simpa using hik), ih]

/-- What lies on a key in the stack is what has been asked for since. -/
theorem takeWhile_stack (k : κ) : ∀ h : List κ,
    (stack h).takeWhile (· ≠ k) = stack (h.takeWhile (· ≠ k))
  | [] => rfl
  | j :: h => by
    by_cases hjk : j = k
    · rw [stack, List.takeWhile_cons_of_neg (by simpa using hjk),
        List.takeWhile_cons_of_neg (by simpa using hjk), stack]
    · rw [stack, List.takeWhile_cons_of_pos (by simpa using hjk),
        List.takeWhile_cons_of_pos (by simpa using hjk), stack, takeWhile_filter hjk,
        takeWhile_stack k h]

theorem weight_stack (h : List κ) : weight size (stack h) = ∑ k ∈ h.toFinset, size k := by
  have hset : h.toFinset = (stack h).toFinset := by
    ext k
    simp
  rw [hset, List.sum_toFinset size (stack_nodup h)]
  rfl

theorem mem_fitting : ∀ {limit : ℕ} {l : List κ}, k ∈ fitting size limit l
    ↔ k ∈ l ∧ weight size (l.takeWhile (· ≠ k)) + size k ≤ limit
  | _, [] => by simp [fitting]
  | limit, i :: l => by
    by_cases hik : i = k
    · subst hik
      rw [List.takeWhile_cons_of_neg (by simp), weight_nil, fitting]
      split_ifs with hi <;> simp [hi]
    · have hki : k ≠ i := fun h => hik h.symm
      rw [List.takeWhile_cons_of_pos (by simpa using hik), weight_cons, fitting, List.mem_cons]
      split_ifs with hi
      · rw [List.mem_cons, mem_fitting]
        simp only [hki, false_or]
        exact and_congr_right fun _ => by omega
      · simp only [List.not_mem_nil, hki, false_or, false_iff, not_and]
        omega

/-- A request finds its key if what has been asked for since then fits beside it. -/
theorem mem_fitting_stack : k ∈ fitting size limit (stack h)
    ↔ k ∈ h ∧ (∑ j ∈ since k h, size j) + size k ≤ limit := by
  rw [mem_fitting, mem_stack, takeWhile_stack, weight_stack]
  rfl

theorem perm_toFront {l : List κ} (hl : l.Nodup) (hk : k ∈ l) :
    (k :: l.filter (· ≠ k)).Perm l := by
  refine List.Perm.trans (List.Perm.cons k ?_) (List.perm_cons_erase hk).symm
  rw [hl.erase_eq_filter]
  exact List.Perm.of_eq (List.filter_congr fun j _ => by simp [bne, beq_eq_decide])

/-- A key that is there moves to the front. -/
theorem fitting_stack_hit (hk : k ∈ fitting size limit (stack h)) :
    fitting size limit (stack (k :: h))
      = k :: (fitting size limit (stack h)).filter (· ≠ k) := by
  obtain ⟨q, hl, hw, hq⟩ := fitting_spec size limit (stack h)
  have hnd := stack_nodup h
  generalize fitting size limit (stack h) = F at hl hw hq hk
  rw [hl, List.nodup_append] at hnd
  have hqk : q.filter (· ≠ k) = q :=
    List.filter_eq_self.2 fun j hj => by simpa using (hnd.2.2 k hk j hj).symm
  have hweight : weight size (k :: F.filter (· ≠ k)) = weight size F :=
    ((perm_toFront hnd.1 hk).map size).sum_eq
  rw [stack, hl, List.filter_append, hqk, ← List.cons_append]
  exact fitting_eq (by rw [hweight]; exact hw) fun j hj => by
    rw [hweight]
    exact hq j hj

/-- A key that is not there is put in front of what fits beside it. -/
theorem fitting_stack_miss (hk : k ∉ fitting size limit (stack h)) (hsize : size k ≤ limit) :
    fitting size limit (stack (k :: h))
      = k :: fitting size (limit - size k) (fitting size limit (stack h)) := by
  obtain ⟨q, hl, hw, hq⟩ := fitting_spec size limit (stack h)
  generalize fitting size limit (stack h) = F at hl hw hq hk
  obtain ⟨q', hF, hw', hq'⟩ := fitting_spec size (limit - size k) F
  generalize fitting size (limit - size k) F = G at hF hw' hq'
  have hFk : F.filter (· ≠ k) = F :=
    List.filter_eq_self.2 fun j hj => by
      simp only [decide_eq_true_eq]
      rintro rfl
      exact hk hj
  rw [stack, hl, List.filter_append, hFk, hF, List.append_assoc, ← List.cons_append]
  refine fitting_eq (by rw [weight_cons]; omega) fun j hj => ?_
  rw [weight_cons]
  rcases q' with _ | ⟨i, q'⟩
  · rw [List.append_nil] at hF
    subst hF
    -- the next key of the stack fits no better beside `k`, and is not `k`, which fits
    rcases q with _ | ⟨i, q⟩
    · simp at hj
    have hi := hq i rfl
    have hik : i ≠ k := by
      rintro rfl
      omega
    rw [List.nil_append, List.filter_cons_of_pos (by simpa using hik), List.head?_cons,
      Option.mem_some_iff] at hj
    subst hj
    omega
  · have := hq' j hj
    omega

end Stack

/-! ## The list -/

section Put

variable {size : κ → ℕ} {null k : κ} {limit : ℕ} {h : List κ} {s : Recency κ}

/-- The list has had the requests of `h`, and nothing else. -/
structure Holds (size : κ → ℕ) (limit : ℕ) (h : List κ) (s : Recency κ) : Prop where
  limit_eq : s.limit = limit
  entries_eq : s.entries = (fitting size limit (stack h)).map (sized size)

theorem Holds.find (hs : Holds size limit h s) (k : κ) : s.find k
    = if k ∈ fitting size limit (stack h) then some (sized size k) else none := by
  have hfind : ∀ l : List κ, (l.map (sized size)).find? (fun e => e.1 = k)
      = if k ∈ l then some (sized size k) else none := by
    intro l
    induction l with
    | nil => rfl
    | cons j l ih =>
      rw [List.map_cons, List.find?_cons]
      by_cases hjk : j = k
      · subst hjk
        simp [sized]
      · have hkj : k ≠ j := fun h => hjk h.symm
        simp only [sized, hjk, decide_false, ih, List.mem_cons, hkj, false_or]
  rw [Recency.find, hs.entries_eq, hfind]

/-- A request answers whether its key was missing, and the list has then had it, too. -/
theorem put_holds (hs : Holds size limit h s) (hk : Accepts null s k (size k)) :
    (step null s (.put k (size k))).1 = .bool (k ∉ fitting size limit (stack h))
      ∧ Holds size limit (k :: h) (step null s (.put k (size k))).2 := by
  have hfind := hs.find k
  by_cases hmem : k ∈ fitting size limit (stack h)
  · rw [if_pos hmem] at hfind
    rw [step_put_renew hk hfind le_rfl]
    refine ⟨by simp [hmem], hs.limit_eq, ?_⟩
    show sized size k :: s.entries.filter _ = _
    rw [hs.entries_eq, fitting_stack_hit hmem, List.map_cons, List.filter_map]
    rfl
  · rw [if_neg hmem] at hfind
    have hfit : size k ≤ limit := hs.limit_eq ▸ hk.2.2
    rw [step_put_absent hk hfind]
    refine ⟨by simp [hmem], hs.limit_eq, ?_⟩
    show sized size k :: (shed s.limit (size k) s.entries.reverse).2.reverse = _
    rw [hs.limit_eq, hs.entries_eq, shed_sized hfit, fitting_stack_miss hmem hfit, List.map_cons]

end Put

/-! ## Any policy -/

/-- Some policy that starts with nothing has served the requests of `h`, with `n` misses, and holds
`C` now: it stores each key that it is asked for, and any keys it had before. It may know the
requests to come. -/
inductive Serves (size : κ → ℕ) (limit : ℕ) : List κ → Finset κ → ℕ → Prop
  | start : Serves size limit [] ∅ 0
  | hit (h : List κ) (C C' : Finset κ) (n : ℕ) (k : κ) : Serves size limit h C n → k ∈ C →
    C' ⊆ C → k ∈ C' → Serves size limit (k :: h) C' n
  | miss (h : List κ) (C C' : Finset κ) (n : ℕ) (k : κ) : Serves size limit h C n → k ∉ C →
    C' ⊆ insert k C → k ∈ C' → ∑ j ∈ C', size j ≤ limit → Serves size limit (k :: h) C' (n + 1)

namespace Serves

variable {size : κ → ℕ} {limit m n : ℕ} {h : List κ} {C : Finset κ}

theorem sum_le (hs : Serves size limit h C n) : ∑ j ∈ C, size j ≤ limit := by
  induction hs with
  | start => exact Nat.zero_le _
  | hit h C C' n k _ _ hsub _ ih => exact (Finset.sum_le_sum_of_subset hsub).trans ih
  | miss h C C' n k _ _ _ _ hsum _ => exact hsum

/-- The requests in stretches, each the longest that asks for no more than fits: `done` of them are
over, and the last has asked for the keys of `T`. The policy has missed once in each of them, from
its second request to the first of the next; or it still holds all that the last has asked for. -/
structure Stretches (size : κ → ℕ) (limit m : ℕ) (h : List κ) (C : Finset κ) (n done : ℕ)
    (T : List κ) : Prop where
  prefix_stack : T <+: stack h
  fits : weight size T ≤ limit
  misses_le : misses size limit h ≤ done * (limit / m) + T.length
  done_lt : done < n
  kept : n = done + 1 → ∃ D : Finset κ, T.toFinset ⊆ D ∧ C ⊆ D ∧ ∑ j ∈ D, size j ≤ limit

omit [DecidableEq κ] in
theorem length_le (hm : 0 < m) {T : List κ} (hT : ∀ k ∈ T, m ≤ size k)
    (hfits : weight size T ≤ limit) : T.length ≤ limit / m := by
  rw [Nat.le_div_iff_mul_le hm]
  have := List.card_nsmul_le_sum (T.map size) m (by simpa using hT)
  rw [List.length_map, smul_eq_mul] at this
  exact this.trans hfits

variable (size limit h) in
theorem misses_cons_le (k : κ) : misses size limit (k :: h) ≤ misses size limit h + 1 := by
  rw [misses]
  split_ifs <;> omega

theorem misses_cons_hit {k : κ} (hk : k ∈ fitting size limit (stack h)) :
    misses size limit (k :: h) = misses size limit h := by
  rw [misses, if_pos hk, Nat.add_zero]

section Request

variable {done : ℕ} {T : List κ} {C' : Finset κ} {k : κ}

/-- A request for a key of the stretch. -/
theorem Stretches.again (hs : Stretches size limit m h C n done T) (hk : k ∈ T) {n' : ℕ}
    (hn : n ≤ n') (hC' : n' = n → C' ⊆ C) :
    Stretches size limit m (k :: h) C' n' done (k :: T.filter (· ≠ k)) := by
  have hnd := hs.prefix_stack.sublist.nodup (stack_nodup h)
  have hperm := perm_toFront hnd hk
  refine ⟨?_, ((hperm.map size).sum_eq).le.trans hs.fits, ?_, by have := hs.done_lt; omega,
    fun hn' => ?_⟩
  · rw [stack, List.cons_prefix_cons]
    exact ⟨rfl, hs.prefix_stack.filter _⟩
  · rw [misses_cons_hit ((prefix_fitting hs.prefix_stack hs.fits).subset hk), hperm.length_eq]
    exact hs.misses_le
  · have hdone := hs.done_lt
    obtain ⟨D, hTD, hCD, hD⟩ := hs.kept (by omega)
    refine ⟨D, ?_, (hC' (by omega)).trans hCD, hD⟩
    rwa [List.toFinset_eq_of_perm _ _ hperm]

/-- A request for another key, which fits beside them. -/
theorem Stretches.grow (hs : Stretches size limit m h C n done T) (hk : k ∉ T)
    (hfits : size k + weight size T ≤ limit) {n' : ℕ} (hn : n ≤ n')
    (hC' : n' = n → k ∈ C ∧ C' ⊆ C) : Stretches size limit m (k :: h) C' n' done (k :: T) := by
  have hTk : T.filter (· ≠ k) = T :=
    List.filter_eq_self.2 fun j hj => by
      simp only [decide_eq_true_eq]
      rintro rfl
      exact hk hj
  refine ⟨?_, by rwa [weight_cons], ?_, by have := hs.done_lt; omega, fun hn' => ?_⟩
  · rw [stack, List.cons_prefix_cons, ← hTk]
    exact ⟨rfl, hs.prefix_stack.filter _⟩
  · have := misses_cons_le size limit h k
    have := hs.misses_le
    rw [List.length_cons]
    omega
  · have hdone := hs.done_lt
    obtain ⟨D, hTD, hCD, hD⟩ := hs.kept (by omega)
    obtain ⟨hkC, hC'⟩ := hC' (by omega)
    refine ⟨D, ?_, hC'.trans hCD, hD⟩
    rw [List.toFinset_cons]
    exact Finset.insert_subset (hCD hkC) hTD

/-- A request for a key that does not fit beside them ends the stretch. -/
theorem Stretches.next (hs : Stretches size limit m h C n done T) (hk : k ∉ T)
    (hfits : limit < size k + weight size T) (hlen : T.length ≤ limit / m)
    (hsize : size k ≤ limit) {n' : ℕ} (hn : n ≤ n') (hn' : k ∉ C → n < n') (hkC' : k ∈ C')
    (hC' : ∑ j ∈ C', size j ≤ limit) :
    Stretches size limit m (k :: h) C' n' (done + 1) [k] := by
  have hdone := hs.done_lt
  have hmiss : done + 1 < n' := by
    by_contra hle
    obtain ⟨D, hTD, hCD, hD⟩ := hs.kept (by omega)
    have hkC : k ∈ C := by
      by_contra hkC
      have := hn' hkC
      omega
    -- it would still hold more than fits
    have hsub : insert k T.toFinset ⊆ D := Finset.insert_subset (hCD hkC) hTD
    have hle := (Finset.sum_le_sum_of_subset hsub).trans hD
    rw [Finset.sum_insert (by simpa using hk),
      List.sum_toFinset size (hs.prefix_stack.sublist.nodup (stack_nodup h))] at hle
    have : (T.map size).sum = weight size T := rfl
    omega
  refine ⟨?_, by simpa using hsize, ?_, hmiss,
    fun _ => ⟨C', by simpa using hkC', Finset.Subset.rfl, hC'⟩⟩
  · rw [stack, List.cons_prefix_cons]
    exact ⟨rfl, List.nil_prefix⟩
  · have := misses_cons_le size limit h k
    have := hs.misses_le
    rw [List.length_singleton, Nat.succ_mul]
    omega

end Request

theorem exists_stretches (hm : 0 < m) (hs : Serves size limit h C n)
    (hsize : ∀ k ∈ h, m ≤ size k ∧ size k ≤ limit) (hne : h ≠ []) :
    ∃ done T, Stretches size limit m h C n done T := by
  -- the request goes on with the stretch that there is, or begins one
  have hstep : ∀ {h : List κ} {C C' : Finset κ} {n n' : ℕ} {k : κ}, Serves size limit h C n →
      Serves size limit (k :: h) C' n' →
      (∀ j ∈ k :: h, m ≤ size j ∧ size j ≤ limit) → n ≤ n' → (k ∉ C → n < n') →
      (n' = n → k ∈ C ∧ C' ⊆ C) → k ∈ C' →
      (h ≠ [] → ∃ done T, Stretches size limit m h C n done T) →
      ∃ done T, Stretches size limit m (k :: h) C' n' done T := by
    intro h C C' n n' k hs hs' hsize hn hmiss hC' hkC' ih
    have hk := (hsize k List.mem_cons_self).2
    by_cases hnil : h = []
    · subst hnil
      cases hs
      refine ⟨0, [k], ⟨List.prefix_refl _, by simpa using hk, ?_, hmiss (by simp), fun _ => ?_⟩⟩
      · have := misses_cons_le size limit [] k
        rwa [Nat.zero_mul, Nat.zero_add]
      · exact ⟨C', by simpa using hkC', Finset.Subset.rfl, hs'.sum_le⟩
    · obtain ⟨done, T, hT⟩ := ih hnil
      by_cases hkT : k ∈ T
      · exact ⟨done, _, hT.again hkT hn fun heq => (hC' heq).2⟩
      by_cases hfits : size k + weight size T ≤ limit
      · exact ⟨done, _, hT.grow hkT hfits hn hC'⟩
      · have hlen := length_le hm (fun j hj => (hsize j (List.mem_cons_of_mem _
          (mem_stack.1 (hT.prefix_stack.subset hj)))).1) hT.fits
        exact ⟨done + 1, [k], hT.next hkT (by omega) hlen hk hn hmiss hkC' hs'.sum_le⟩
  induction hs with
  | start => exact absurd rfl hne
  | hit h C C' n k hs hk hsub hk' ih =>
    exact hstep hs (.hit h C C' n k hs hk hsub hk') hsize le_rfl (fun h => absurd hk h)
      (fun _ => ⟨hk, hsub⟩) hk' fun hne => ih (fun j hj => hsize j (List.mem_cons_of_mem k hj)) hne
  | miss h C C' n k hs hk hsub hk' hsum ih =>
    exact hstep hs (.miss h C C' n k hs hk hsub hk' hsum) hsize (Nat.le_succ n)
      (fun _ => Nat.lt_succ_self n) (fun heq => by omega) hk'
      fun hne => ih (fun j hj => hsize j (List.mem_cons_of_mem k hj)) hne

/-- The recency list misses at most as many times as often as it has room for keys. -/
theorem misses_le (hm : 0 < m) (hs : Serves size limit h C n)
    (hsize : ∀ k ∈ h, m ≤ size k ∧ size k ≤ limit) :
    misses size limit h ≤ limit / m * n := by
  rcases eq_or_ne h [] with rfl | hne
  · exact Nat.zero_le _
  obtain ⟨done, T, hT⟩ := hs.exists_stretches hm hsize hne
  have hlen := length_le hm (fun j hj => (hsize j
    (mem_stack.1 (hT.prefix_stack.subset hj))).1) hT.fits
  calc misses size limit h ≤ done * (limit / m) + T.length := hT.misses_le
    _ ≤ (done + 1) * (limit / m) := by
      rw [Nat.succ_mul]
      omega
    _ ≤ n * (limit / m) := Nat.mul_le_mul_right _ hT.done_lt
    _ = limit / m * n := Nat.mul_comm _ _

end Serves

end Recency

end XCache
