import XCache.Proofs.MemoryLru
import XCache.Proofs.MemoryLfuda

/-!
# The capacity of the in-memory caches

The loop of `remove_cache` also ends when nothing is left to evict, and it adds `cache_size` and the
size of the entry to come modulo `2 ^ 64`. `put` checks neither that the entry can fit nor that the
sum does not wrap: the entries stay within `max_size` exactly as long as the caller sees to both
(`memory_capacity_iff`).
-/

namespace XCache

variable {τ ε α β : Type} {s t : Memory τ ε}

namespace Memory

/-- The sizes fit in the cache, and `cache_size` is their sum. -/
structure Contained (s : Memory τ ε) : Prop where
  fits : sizes s.nodes.nodes ≤ s.maxSize.toNat
  exact : s.cacheSize.toNat = sizes s.nodes.nodes

/-- `put` of a key that is not resident, `renew` and `resize`. -/
def Fresh (s : Memory τ ε) : MemoryOp τ α β → Prop
  | .call (.put c) => s.map.lookup c.key = none
  | .call (.renew _ _) => True
  | .call (.resize _) => True
  | _ => False

/-- The entry of a `put` can fit, and what it adds to `cache_size` does not make it wrap. -/
def Roomy (s : Memory τ ε) : MemoryOp τ α β → Prop
  | .call (.put c) =>
    c.key ≠ [] → c.size ≤ s.maxSize ∧ s.cacheSize.toNat + c.size.toNat < 2 ^ 64
  | _ => True

/-- After a `put` that returns true, and after a `resize`, the entries are within the capacity. -/
def Contains (step : Memory τ ε → MemoryOp τ α β → Except MemoryError (MemoryRet τ β) × Memory τ ε)
    (s : Memory τ ε) (op : MemoryOp τ α β) : Prop :=
  match op with
  | .call (.put _) => (step s op).1 = .ok (.bool true) → (step s op).2.Contained
  | .call (.resize _) => (step s op).2.Contained
  | _ => True

theorem contained (hs : WellFormed s) (h : s.cacheSize ≤ s.maxSize) : s.Contained := by
  refine ⟨?_, hs.sum⟩
  rw [← hs.sum]
  exact UInt64.le_iff_toNat_le.1 h

end Memory

namespace MemoryPolicy

variable {P : MemoryPolicy τ ε} {need : UInt64}

theorem shrink_maxSize (hs : WellFormed s) (need : UInt64) :
    (P.shrink s need).maxSize = s.maxSize := (shrink_left hs need).maxSize

/-- `remove_cache` makes room for what can fit. -/
theorem shrink_room (hs : WellFormed s) (hle : need ≤ s.maxSize)
    (hsum : s.cacheSize.toNat + need.toNat < 2 ^ 64) :
    (P.shrink s need).cacheSize.toNat + need.toNat ≤ s.maxSize.toNat := by
  have hleft := shrink_left (P := P) hs need
  have hcs := hleft.cacheSize_le
  have hle := UInt64.le_iff_toNat_le.1 hle
  rcases shrink_fits (P := P) hs need with hnil | hfits
  · have hzero := hleft.wellFormed.sum
    rw [hnil] at hzero
    simp only [sizes, List.map_nil, List.sum_nil] at hzero
    omega
  · rw [gt_iff_lt, UInt64.lt_iff_toNat_lt, UInt64.toNat_add, Nat.mod_eq_of_lt (by omega)] at hfits
    omega

theorem resize_contained (hs : WellFormed s) (size : UInt64) :
    (P.shrink { s with maxSize := size } 0).cacheSize ≤ size := by
  have hlt := s.cacheSize.toNat_lt
  have hle : (0 : UInt64) ≤ size := UInt64.le_iff_toNat_le.2 (by simp)
  have h := shrink_room (P := P) (hs.limit size) hle (by simpa using hlt)
  exact UInt64.le_iff_toNat_le.2 (by simpa using h)

/-- With a new entry, for which `remove_cache` has been asked to make room, the cache is within its
capacity exactly if the entry can fit and the sum does not wrap. -/
theorem contained_iff (hs : WellFormed s) (hcap : s.cacheSize ≤ s.maxSize) {n : Node (Cache τ)}
    (hp : t.nodes.nodes.Perm (n :: (P.shrink s n.val.size).nodes.nodes))
    (hcs : t.cacheSize = (P.shrink s n.val.size).cacheSize + n.val.size)
    (hmax : t.maxSize = s.maxSize) :
    t.Contained ↔ n.val.size ≤ s.maxSize ∧ s.cacheSize.toNat + n.val.size.toNat < 2 ^ 64 := by
  have hsizes := sizes_perm hp
  rw [sizes_cons] at hsizes
  have hleft := shrink_left (P := P) hs n.val.size
  have hsum := hleft.wellFormed.sum
  constructor
  · rintro ⟨hfits, -⟩
    rw [hmax] at hfits
    refine ⟨UInt64.le_iff_toNat_le.2 (by omega), by_contra fun hwrap => ?_⟩
    -- the wrapped sum is less than `cache_size`, so nothing has been evicted
    have hcap := UInt64.le_iff_toNat_le.1 hcap
    have hlt := n.val.size.toNat_lt
    have hself : P.shrink s n.val.size = s := by
      refine shrink_of_fits ?_
      rw [gt_iff_lt, UInt64.lt_iff_toNat_lt, UInt64.toNat_add]
      omega
    have hmaxlt := s.maxSize.toNat_lt
    rw [hself] at hsizes hsum
    omega
  · rintro ⟨hle, hlt⟩
    have hroom := shrink_room (P := P) hs hle hlt
    refine ⟨?_, ?_⟩
    · rw [hmax]
      omega
    · have hmaxlt := s.maxSize.toNat_lt
      rw [hcs, UInt64.toNat_add, Nat.mod_eq_of_lt (by omega)]
      omega

end MemoryPolicy

/-! ## A class -/

section Class

variable {P : MemoryPolicy τ ε} {Rep : Memory τ ε → Prop}
  {step : Memory τ ε → MemoryOp τ α β → Except MemoryError (MemoryRet τ β) × Memory τ ε}

/-- What a class does with calls that grow no resident entry, in objects that meet `Rep`. -/
structure Behaves (P : MemoryPolicy τ ε) (Rep : Memory τ ε → Prop)
    (step : Memory τ ε → MemoryOp τ α β → Except MemoryError (MemoryRet τ β) × Memory τ ε) :
    Prop where
  wellFormed : ∀ {s}, Rep s → WellFormed s
  put_idle : ∀ {s} {c : Cache τ}, c.key = [] ∨ c.size = 0 →
    ∃ r, step s (.call (.put c)) = (r, s) ∧ r ≠ .ok (.bool true)
  put_new : ∀ {s} {c : Cache τ}, Rep s → s.map.lookup c.key = none → c.key ≠ [] → c.size ≠ 0 →
    ∃ (n : Node (Cache τ)) (t : Memory τ ε), step s (.call (.put c)) = (.ok (.bool true), t)
      ∧ n.val.size = c.size ∧ t.nodes.nodes.Perm (n :: (P.shrink s c.size).nodes.nodes)
      ∧ t.cacheSize = (P.shrink s c.size).cacheSize + c.size ∧ t.maxSize = s.maxSize
      ∧ (s.cacheSize.toNat + c.size.toNat < 2 ^ 64 → Rep t)
  renew : ∀ {s} (k : Bytes) (a : α), Rep s → Rep (step s (.call (.renew k a))).2
    ∧ (step s (.call (.renew k a))).2.cacheSize = s.cacheSize
    ∧ (step s (.call (.renew k a))).2.maxSize = s.maxSize
  resize_zero : ∀ s, (step s (.call (.resize 0))).2 = s
  resize : ∀ {s} {n : UInt64}, Rep s → n ≠ 0 →
    (step s (.call (.resize n))).2 = P.shrink { s with maxSize := n } 0
      ∧ Rep (P.shrink { s with maxSize := n } 0)

variable (B : Behaves P Rep step)
include B

theorem Behaves.put_iff {c : Cache τ} (hs : Rep s) (hcap : s.cacheSize ≤ s.maxSize)
    (hl : s.map.lookup c.key = none) (hk : c.key ≠ []) (hz : c.size ≠ 0) :
    ∃ t, step s (.call (.put c)) = (.ok (.bool true), t)
      ∧ (t.Contained ↔ s.Roomy (.call (.put c) : MemoryOp τ α β))
      ∧ (s.Roomy (.call (.put c) : MemoryOp τ α β) → Rep t ∧ t.cacheSize ≤ t.maxSize) := by
  obtain ⟨n, t, ht, hn, hp, hcs, hmax, hrep⟩ := B.put_new hs hl hk hz
  rw [← hn] at hp hcs
  have hiff : t.Contained ↔ s.Roomy (.call (.put c) : MemoryOp τ α β) := by
    rw [MemoryPolicy.contained_iff (B.wellFormed hs) hcap hp hcs hmax, hn]
    exact (imp_iff_right hk).symm
  refine ⟨t, ht, hiff, fun hroom => ⟨hrep (hroom hk).2, ?_⟩⟩
  have hc := hiff.2 hroom
  have hfits := hc.fits
  rw [← hc.exact] at hfits
  exact UInt64.le_iff_toNat_le.2 hfits

theorem Behaves.contains_iff (s : Memory τ ε) (ops : List (MemoryOp τ α β)) (hs : Rep s)
    (hcap : s.cacheSize ≤ s.maxSize) (hops : RunOk step (Memory.Fresh (α := α) (β := β)) s ops) :
    RunOk step (Memory.Contains step) s ops ↔ RunOk step Memory.Roomy s ops := by
  refine runOk_iff (I := fun s => Rep s ∧ s.cacheSize ≤ s.maxSize) ?_ ?_ s ops ⟨hs, hcap⟩ hops
  · rintro s op ⟨hs, hcap⟩ hfresh hroom
    match op with
    | .call (.put c) =>
      by_cases hidle : c.key = [] ∨ c.size = 0
      · obtain ⟨r, hr, hne⟩ := B.put_idle hidle
        rw [Memory.Contains, hr]
        exact ⟨⟨hs, hcap⟩, fun h => absurd h hne⟩
      · obtain ⟨hk, hz⟩ := not_or.1 hidle
        obtain ⟨t, ht, hiff, hrep⟩ := B.put_iff hs hcap hfresh hk hz
        rw [Memory.Contains, ht]
        exact ⟨hrep hroom, fun _ => hiff.2 hroom⟩
    | .call (.renew k a) =>
      obtain ⟨hrep, hcs, hmax⟩ := B.renew k a hs
      exact ⟨⟨hrep, by rw [hcs, hmax]; exact hcap⟩, trivial⟩
    | .call (.resize n) =>
      by_cases hn : n = 0
      · subst hn
        rw [Memory.Contains, B.resize_zero]
        exact ⟨⟨hs, hcap⟩, Memory.contained (B.wellFormed hs) hcap⟩
      · obtain ⟨heq, hrep⟩ := B.resize hs hn
        have hle := MemoryPolicy.resize_contained (P := P) (B.wellFormed hs) n
        have hmax := MemoryPolicy.shrink_maxSize (P := P) ((B.wellFormed hs).limit n) 0
        rw [Memory.Contains, heq]
        refine ⟨⟨hrep, ?_⟩, Memory.contained (B.wellFormed hrep) ?_⟩
        · rw [hmax]
          exact hle
        · rw [hmax]
          exact hle
  · rintro s op ⟨hs, hcap⟩ hfresh hroom
    match op with
    | .call (.put c) =>
      have hk : c.key ≠ [] := fun h => hroom fun hk => absurd h hk
      have hz : c.size ≠ 0 := by
        intro h
        refine hroom fun _ => ⟨?_, ?_⟩
        · simp [h, UInt64.le_iff_toNat_le]
        · simpa [h] using s.cacheSize.toNat_lt
      obtain ⟨t, ht, hiff, -⟩ := B.put_iff hs hcap hfresh hk hz
      rw [Memory.Contains, ht]
      exact fun h => hroom (hiff.1 (h rfl))
    | .call (.renew _ _) => exact absurd trivial hroom
    | .call (.resize _) => exact absurd trivial hroom

end Class

/-! ## The two classes -/

theorem MemoryLru.behaves : Behaves MemoryLru.policy WellFormed MemoryLru.step where
  wellFormed := id
  put_idle {s c} h := by
    by_cases hk : c.key = []
    · exact ⟨_, outcome_map _ (MemoryLru.put_keyNull hk), by simp [Except.map]⟩
    · have hz := h.resolve_left hk
      exact ⟨_, outcome_map _ (MemoryLru.put_zero hk hz), by simp [Except.map]⟩
  put_new {s c} hs hl hk hz := by
    have hleft := MemoryPolicy.shrink_left (P := MemoryLru.policy) hs c.size
    refine ⟨⟨_, c⟩, _, outcome_map _ (MemoryLru.put_absent hs hk hz hl), rfl, Nodes.perm_insert,
      rfl, hleft.maxSize, fun hsum => ?_⟩
    have hnone := hs.lookup_eq_none.1 hl
    have hle := hleft.cacheSize_le
    refine MemoryLru.wellFormed_pushFront hleft.wellFormed ?_ (by omega)
    exact hleft.wellFormed.lookup_eq_none.2 fun n hn => hnone n (hleft.mem.1 hn).1
  renew {s} k _ hs := by
    rcases hl : s.map.lookup k with _ | it
    · have h : MemoryLru.step s (.call (.renew k ())) = (.ok (.bool false), s) :=
        outcome_map _ (MemoryLru.renew_absent hl)
      rw [h]
      exact ⟨hs, rfl, rfl⟩
    · obtain ⟨n, hn, hk, -, -⟩ := hs.find_lookup hl
      have h : MemoryLru.step s (.call (.renew k ())) = (.ok (.bool true), MemoryLru.renewed s n) :=
        outcome_map _ (MemoryLru.renew_resident hs hn hk)
      rw [h]
      exact ⟨MemoryLru.wellFormed_renewed hs hn, rfl, rfl⟩
  resize_zero s := rfl
  resize {s n} hs hn := by
    have h : MemoryLru.step s (.call (.resize n))
        = (.ok .unit, MemoryLru.policy.shrink { s with maxSize := n } 0) :=
      outcome_map _ (MemoryPolicy.resize_eq MemoryLru.size_eq_zero hs hn)
    rw [h]
    exact ⟨rfl, (MemoryPolicy.shrink_left (hs.limit n) 0).wellFormed⟩

theorem MemoryLfuda.behaves : Behaves MemoryLfuda.policy MemoryLfuda.Rep MemoryLfuda.step where
  wellFormed := Rep.wellFormed
  put_idle {s c} h := by
    by_cases hk : c.key = []
    · exact ⟨_, outcome_map _ (MemoryLfuda.put_keyNull hk), by simp [Except.map]⟩
    · have hz := h.resolve_left hk
      exact ⟨_, outcome_map _ (MemoryLfuda.put_zero hk hz), by simp [Except.map]⟩
  put_new {s c} hs hl hk hz := by
    obtain ⟨t, ht⟩ : ∃ t, t = MemoryLfuda.policy.shrink s c.size := ⟨_, rfl⟩
    have hleft := MemoryPolicy.shrink_left (P := MemoryLfuda.policy) hs.wellFormed c.size
    have hrep := MemoryLfuda.rep_shrink hs c.size
    have hnone := hs.wellFormed.lookup_eq_none.1 hl
    have hl' : t.map.lookup c.key = none := by
      rw [ht]
      exact hleft.wellFormed.lookup_eq_none.2 fun n hn => hnone n (hleft.mem.1 hn).1
    rw [← ht] at hleft hrep ⊢
    have hput :=
      MemoryLfuda.emplace_eq hrep.wellFormed hrep.sorted (c := MemoryLfuda.stamped t c) hl'
    have hle := hleft.cacheSize_le
    refine ⟨⟨t.nodes.next, MemoryLfuda.stamped t c⟩, _,
      outcome_map _ (MemoryLfuda.put_absent hs hk hz hl t ht), rfl, ?_, rfl, hleft.maxSize,
      fun hsum => ?_⟩
    · show (MemoryLfuda.emplace t (MemoryLfuda.stamped t c)).nodes.nodes.Perm _
      rw [hput]
      exact Nodes.perm_insert
    · refine MemoryLfuda.rep_emplace hrep (c := MemoryLfuda.stamped t c) hl' ?_
      show t.cacheSize.toNat + c.size.toNat < _
      omega
  renew {s} k ts hs := by
    rcases hl : s.map.lookup k with _ | it
    · have h : MemoryLfuda.step s (.call (.renew k ts)) = (.ok (.bool false), s) :=
        outcome_map _ (MemoryLfuda.renew_absent hl)
      rw [h]
      exact ⟨hs, rfl, rfl⟩
    · obtain ⟨n, hn, hk, -, -⟩ := hs.wellFormed.find_lookup hl
      have hc : (MemoryLfuda.renewed s n.val ts).key = n.val.key := rfl
      have hrep := MemoryLfuda.rep_reinserted hs hn hc rfl
      have h : MemoryLfuda.step s (.call (.renew k ts)) = (.ok (.bool true),
          MemoryLfuda.reinserted s n (MemoryLfuda.renewed s n.val ts) s.cacheSize) :=
        outcome_map _ (MemoryLfuda.renew_resident hs hn hk ts)
      rw [h]
      exact ⟨hrep, rfl, rfl⟩
  resize_zero s := rfl
  resize {s n} hs hn := by
    have hs' : MemoryLfuda.Rep { s with maxSize := n } :=
      ⟨hs.wellFormed.limit n, hs.sorted, hs.rejected⟩
    have h : MemoryLfuda.step s (.call (.resize n))
        = (.ok .unit, MemoryLfuda.policy.shrink { s with maxSize := n } 0) :=
      outcome_map _ (MemoryPolicy.resize_eq MemoryLfuda.size_eq_zero hs.wellFormed hn)
    rw [h]
    exact ⟨rfl, MemoryLfuda.rep_shrink hs' 0⟩

/-- In both classes: in a run that only puts keys that are not resident, the entries stay within
`max_size`, and `cache_size` is their sum, exactly as long as each entry put can fit and its size
does not make `cache_size` wrap. -/
theorem memory_capacity_iff (M : UInt64) :
    (∀ ops : List MemoryLru.Op, RunOk MemoryLru.step Memory.Fresh (MemoryLru.start M) ops →
        (RunOk MemoryLru.step (Memory.Contains MemoryLru.step) (MemoryLru.start M) ops
          ↔ RunOk MemoryLru.step Memory.Roomy (MemoryLru.start M) ops))
      ∧ ∀ ops : List MemoryLfuda.Op, RunOk MemoryLfuda.step Memory.Fresh (MemoryLfuda.start M) ops →
        (RunOk MemoryLfuda.step (Memory.Contains MemoryLfuda.step) (MemoryLfuda.start M) ops
          ↔ RunOk MemoryLfuda.step Memory.Roomy (MemoryLfuda.start M) ops) := by
  have hM : (0 : UInt64) ≤ M := UInt64.le_iff_toNat_le.2 (Nat.zero_le _)
  exact ⟨fun ops hops => MemoryLru.behaves.contains_iff _ ops (WellFormed.construct M _) hM hops,
    fun ops hops => MemoryLfuda.behaves.contains_iff _ ops (MemoryLfuda.rep_start M) hM hops⟩

/-- Two entries in a cache of 10, of which the second evicts the first. -/
theorem memory_capacity_iff_ten :
    (RunOk MemoryLru.step (Memory.Contains MemoryLru.step) (MemoryLru.start 10)
        [.call (.put ⟨[97], 6, 0, [], ()⟩), .call (.put ⟨[98], 5, 0, [], ()⟩)]
      ↔ RunOk MemoryLru.step Memory.Roomy (MemoryLru.start 10)
        [.call (.put ⟨[97], 6, 0, [], ()⟩), .call (.put ⟨[98], 5, 0, [], ()⟩)])
    ∧ (RunOk MemoryLfuda.step (Memory.Contains MemoryLfuda.step) (MemoryLfuda.start 10)
        [.call (.put ⟨[97], 6, 0, [], ⟨1, 0, 0⟩⟩), .call (.put ⟨[98], 5, 0, [], ⟨2, 0, 0⟩⟩)]
      ↔ RunOk MemoryLfuda.step Memory.Roomy (MemoryLfuda.start 10)
        [.call (.put ⟨[97], 6, 0, [], ⟨1, 0, 0⟩⟩), .call (.put ⟨[98], 5, 0, [], ⟨2, 0, 0⟩⟩)]) :=
  ⟨(memory_capacity_iff 10).1 _ ⟨rfl, rfl, trivial⟩,
    (memory_capacity_iff 10).2 _ ⟨rfl, rfl, trivial⟩⟩

/-- An entry of 20 bytes in a cache of 10. -/
theorem memory_capacity_exceeded :
    ¬ ∀ (M : UInt64) (ops : List MemoryLru.Op), M ≠ 0 →
      RunOk MemoryLru.step Memory.Fresh (MemoryLru.start M) ops →
      RunOk MemoryLru.step (Memory.Contains MemoryLru.step) (MemoryLru.start M) ops := by
  intro h
  have hrun := h 10 [.call (.put ⟨[97], 20, 0, [], ()⟩)] (by decide) ⟨rfl, trivial⟩
  have hfits := (hrun.1 rfl).fits
  exact absurd hfits (by decide)

end XCache
