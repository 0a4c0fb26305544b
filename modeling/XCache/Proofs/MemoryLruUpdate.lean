import XCache.Proofs.MemoryLru

/-!
# The in-memory LRU's `update`

`update` has its two branches exchanged: of a key it has found it says that there is none, and for
one it has not found it goes on with `end()`. So it does what it is for on no input: the one case in
which nothing is asked of it is a growth that its own entry would be evicted for.
-/

namespace XCache

namespace MemoryLru

variable {s t : State} {n : Node Cache} {key : Bytes} {size : UInt64}

/-- The nodes that have to go to make room for an entry of that size. -/
def displaced (s : State) (n : Node Cache) (size : UInt64) : List (Node Cache) :=
  if n.val.size < size then policy.dropped s (size - n.val.size) else []

/-- `t` is `s` with the nodes of `D` gone and the entry of `n` resized. -/
structure Resized (s : State) (n : Node Cache) (size : UInt64) (D : List (Node Cache))
    (t : State) : Prop where
  entry : ⟨n.addr, { n.val with size := size }⟩ ∈ t.nodes.nodes
  recency : t.nodes.nodes.map Node.addr
    = (s.nodes.nodes.map Node.addr).filter fun it => it ∉ D.map Node.addr
  cacheSize : t.cacheSize.toNat + n.val.size.toNat + sizes D = s.cacheSize.toNat + size.toNat

/-- What `update` is for. -/
structure Updates (s : State) (key : Bytes) (size : UInt64) : Prop where
  absent : s.map.lookup key = none → outcome (update key size) s = (.ok false, s)
  resident : ∀ n ∈ s.nodes.nodes, n.val.key = key → n ∉ displaced s n size →
    ∃ t, outcome (update key size) s = (.ok true, t) ∧ Resized s n size (displaced s n size) t

theorem update_absent (h : s.map.lookup key = none) :
    outcome (update key size) s = (.error .dangling, s) := by
  rw [update, outcome_bind_ok (outcome_get s), h]
  rfl

theorem update_resident (hs : WellFormed s) (hn : n ∈ s.nodes.nodes) (hkey : n.val.key = key) :
    outcome (update key size) s = (.ok false, s) := by
  have hl : s.map.lookup key = some n.addr := hkey ▸ hs.lookup_mem hn
  rw [update, outcome_bind_ok (outcome_get s), hl]
  rfl

/-- The entry is evicted for its own growth exactly if it does not fit. -/
theorem growthFits_iff (hs : WellFormed s) (hb : s.GrowthBounded key size) :
    policy.GrowthFits s key size
      ↔ ∀ n ∈ s.nodes.nodes, n.val.key = key → n ∉ displaced s n size := by
  refine forall₃_congr fun n hn hk => ?_
  unfold displaced
  by_cases hlt : n.val.size < size
  · rw [if_pos hlt, imp_iff_right hlt, MemoryPolicy.not_mem_dropped_iff hs hn hlt (hb n hn hk)]
  · simp [hlt]

/-- `update` meets its specification on no key and no size, but where it has none: a resident entry
that does not fit at the new size with those used more recently. -/
theorem update_meets_iff (hs : WellFormed s) (hb : s.GrowthBounded key size) :
    Updates s key size ↔ ¬ policy.GrowthFits s key size := by
  rw [growthFits_iff hs hb]
  constructor
  · intro h hfits
    rcases hl : s.map.lookup key with _ | it
    · have hok := h.absent hl
      rw [update_absent hl] at hok
      simp at hok
    · obtain ⟨n, hn, hk, -, -⟩ := hs.find_lookup hl
      obtain ⟨t, ht, -⟩ := h.resident n hn hk (hfits n hn hk)
      rw [update_resident hs hn hk] at ht
      simp at ht
  · intro h
    simp only [not_forall, not_not] at h
    obtain ⟨n, hn, hk, hD⟩ := h
    refine ⟨fun hl => absurd hk (hs.lookup_eq_none.1 hl n hn), fun m hm hkm hmD => ?_⟩
    obtain rfl := hs.eq_of_key hm hn (hkm.trans hk.symm)
    exact absurd hD hmD

/-- A file of 5 bytes in a cache of 10. -/
def single : State := (step (start 10) (.call (.put ⟨[97], 5, 0, [], ()⟩))).2

theorem single_wellFormed : WellFormed single := by
  have h : Admits (start 10) (.call (.put ⟨[97], 5, 0, [], ()⟩)) := by decide
  exact (call_fares (WellFormed.construct 10 ()) h).keeps (by decide)

/-- It cannot grow to 11 bytes. -/
theorem update_meets_iff_eleven :
    Updates single [97] 11 ↔ ¬ policy.GrowthFits single [97] 11 :=
  update_meets_iff single_wellFormed (by decide)

/-- The file is not resized, and a file that is not there makes `update` dereference `end()`. -/
theorem update_exchanged :
    ¬ ∀ (s : State) (key : Bytes) (size : UInt64), WellFormed s → size ≠ 0 →
      s.GrowthBounded key size → Updates s key size := by
  intro h
  have hD : displaced single ⟨0, ⟨[97], 5, 0, [], ()⟩⟩ 7 = [] := rfl
  obtain ⟨t, ht, -⟩ := (h single [97] 7 single_wellFormed (by decide) (by decide)).resident
    ⟨0, ⟨[97], 5, 0, [], ()⟩⟩ List.mem_cons_self rfl (by simp [hD])
  have hfalse : outcome (update [97] 7) single = (.ok false, single) := rfl
  rw [hfalse] at ht
  simp at ht

end MemoryLru

end XCache
