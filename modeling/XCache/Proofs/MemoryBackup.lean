import XCache.Proofs.MemoryLru
import XCache.Proofs.MemoryLfuda

/-!
# `init` and `backup` of the in-memory caches

`init` takes its entries from the last to the first and pushes each to the front, and `backup`
takes them off the front: what the one has loaded the other returns. In the LFUDA the set's order
decides instead of theirs.
-/

namespace XCache

variable {τ ε : Type} {s t : Memory τ ε}

namespace Memory

/-! ## The loop of `backup` -/

/-- The loop of `backup`, for at most `fuel` iterations. -/
def drainLoop : ℕ → List (Cache τ) → MemoryCall τ ε (List (Cache τ))
  | 0, _ => throw .unfinished
  | fuel + 1, caches => do
    let s ← get
    match s.nodes.nodes with
    | [] => return caches
    | n :: _ => do
      modify fun s => { s with nodes := s.nodes.erase n.addr }
      drainLoop fuel (caches ++ [n.val])

/-- `backup`, node by node. -/
def drain : MemoryCall τ ε (List (Cache τ)) := do
  modify fun s => { s with map := ∅, cacheSize := 0 }
  let s ← get
  drainLoop (s.nodes.nodes.length + 1) []

theorem drainLoop_eq (fuel : ℕ) : ∀ (s : Memory τ ε) (caches : List (Cache τ)),
    s.nodes.nodes.length < fuel →
    outcome (drainLoop fuel caches) s
      = (.ok (caches ++ s.nodes.vals), { s with nodes := s.nodes.clear }) := by
  induction fuel with
  | zero => exact fun s _ h => absurd h (Nat.not_lt_zero _)
  | succ fuel ih =>
    intro s caches hlen
    rw [drainLoop, outcome_bind_ok (outcome_get s)]
    rcases hn : s.nodes.nodes with _ | ⟨n, l⟩
    · have hclear : s.nodes.clear = s.nodes := by
        obtain ⟨⟨nodes, next, _, _⟩, _, _, _, _, _⟩ := s
        subst hn
        rfl
      have hvals : s.nodes.vals = [] := by rw [Nodes.vals, hn, List.map_nil]
      simp only []
      rw [outcome_pure, hvals, hclear, List.append_nil]
    · have hrest : (s.nodes.erase n.addr).nodes = l := by
        have hnodup := s.nodes.nodup
        rw [hn, List.map_cons, List.nodup_cons] at hnodup
        show s.nodes.nodes.filter (fun m => m.addr ≠ n.addr) = l
        rw [hn, List.filter_cons_of_neg (by simp)]
        refine List.filter_eq_self.2 fun m hm => ?_
        have hne : m.addr ≠ n.addr := fun h => hnodup.1 (h ▸ List.mem_map_of_mem hm)
        simpa using hne
      simp only []
      rw [outcome_bind_ok (outcome_modify _ s), ih _ _ ?_]
      · simp only [Nodes.vals, Nodes.clear, hrest, hn, List.map_cons, List.append_assoc,
          List.singleton_append]
        rfl
      · show (s.nodes.erase n.addr).nodes.length < fuel
        rw [hrest]
        rw [hn, List.length_cons] at hlen
        omega

/-- `backup` returns what its loop collects, and leaves what its loop leaves. -/
theorem backup_eq_drain (s : Memory τ ε) : outcome backup s = outcome drain s := by
  rw [drain, outcome_bind_ok (outcome_modify _ s), outcome_bind_ok (outcome_get _)]
  rw [drainLoop_eq _ _ _ (Nat.lt_succ_self _)]
  rfl

/-! ## Loading and saving -/

/-- The object has no entries. -/
structure Empty (s : Memory τ ε) : Prop where
  nodes : s.nodes.nodes = []
  map : s.map = ∅
  cacheSize : s.cacheSize = 0

/-- Entries of distinct keys, whose sizes add up to a `size_t`. -/
structure Distinct (v : List (Cache τ)) : Prop where
  keys : (v.map Cache.key).Nodup
  sum : (v.map fun c => c.size.toNat).sum < 2 ^ 64

/-- The object is consistent, and its entries are `v`, from `begin()` to `end()`. -/
structure Holds (s : Memory τ ε) (v : List (Cache τ)) : Prop where
  wellFormed : WellFormed s
  vals : s.nodes.vals = v

theorem empty_cleared (s : Memory τ ε) :
    ({ s with nodes := s.nodes.clear, map := ∅, cacheSize := 0 } : Memory τ ε).Empty :=
  ⟨rfl, rfl, rfl⟩

theorem Empty.wellFormed (hs : s.Empty) : WellFormed s where
  mapped key it := by simp [hs.map, hs.nodes]
  keys := by
    rw [hs.nodes]
    exact List.nodup_nil
  sum := by
    rw [hs.nodes, hs.cacheSize]
    rfl

theorem Empty.vals (hs : s.Empty) : s.nodes.vals = [] := by rw [Nodes.vals, hs.nodes, List.map_nil]

/-- What an object holds can be loaded into an empty one. -/
theorem distinct_vals (hs : WellFormed s) : Distinct s.nodes.vals where
  keys := by
    rw [Nodes.vals, List.map_map]
    exact hs.keys
  sum := by
    rw [Nodes.vals, List.map_map]
    exact lt_of_eq_of_lt hs.sum.symm s.cacheSize.toNat_lt

/-- Objects that hold the same entries count the same size. -/
theorem cacheSize_eq (hs : WellFormed s) (ht : WellFormed t)
    (h : s.nodes.vals.Perm t.nodes.vals) : s.cacheSize = t.cacheSize := by
  have hsizes : ∀ u : Memory τ ε, sizes u.nodes.nodes
      = (u.nodes.vals.map fun c => c.size.toNat).sum := fun u => by
    rw [Nodes.vals, List.map_map]
    rfl
  rw [← UInt64.toNat_inj, hs.sum, ht.sum, hsizes s, hsizes t]
  exact (h.map _).sum_eq

section Load

variable {v : List (Cache τ)} (hs : s.Empty) (hv : Distinct v)
include hs

theorem Empty.absent : ∀ c ∈ v, s.map.lookup c.key = none := fun c _ => by
  rw [hs.map]
  exact AList.lookup_empty _

include hv

theorem Empty.sum : s.cacheSize.toNat + (v.map fun c => c.size.toNat).sum < 2 ^ 64 := by
  rw [hs.cacheSize]
  simpa using hv.sum

end Load

end Memory

namespace MemoryPolicy

variable (P : MemoryPolicy τ ε)

/-- The entries, in the order they are evicted. -/
def victims (s : Memory τ ε) : List (Cache τ) := (P.order s.nodes.nodes).map Node.val

/-- `t` is consistent, and will evict what `s` would, from the same total. -/
structure Restored (s t : Memory τ ε) : Prop where
  wellFormed : WellFormed t
  victims : P.victims t = P.victims s
  cacheSize : t.cacheSize = s.cacheSize

end MemoryPolicy

namespace MemoryLru

variable {s t : State} {v : List Cache}

theorem init_holds (hs : s.Empty) (hv : Memory.Distinct v) :
    ∃ t, outcome (init v) s = (.ok (), t) ∧ t.Holds v := by
  obtain ⟨hw, hvals⟩ := init_loads hs.wellFormed hv.keys hs.absent (hs.sum hv)
  rw [hs.vals, List.append_nil] at hvals
  exact ⟨_, outcome_modify _ s, hw, hvals⟩

theorem backup_holds (ht : t.Holds v) :
    ∃ u, outcome backup t = (.ok v, u) ∧ u.Empty := by
  rw [← ht.vals]
  exact ⟨_, rfl, Memory.empty_cleared t⟩

theorem victims_eq (s : State) : policy.victims s = s.nodes.vals.reverse :=
  List.map_reverse

theorem restored (hs : WellFormed s) {e : State} (he : e.Empty) :
    ∃ v t u, outcome backup s = (.ok v, t) ∧ outcome (init v) e = (.ok (), u)
      ∧ policy.Restored s u := by
  obtain ⟨u, hinit, hu⟩ := init_holds he (Memory.distinct_vals hs)
  refine ⟨s.nodes.vals, _, u, rfl, hinit, hu.wellFormed, ?_, ?_⟩
  · rw [victims_eq, victims_eq, hu.vals]
  · exact Memory.cacheSize_eq hu.wellFormed hs (by rw [hu.vals])

end MemoryLru

namespace MemoryLfuda

variable {s t : State} {v : List Cache}

/-- The entries in the order of the set. -/
theorem init_sorted (age : UInt64) (hs : s.Empty) (hv : Memory.Distinct v) :
    ∃ t, outcome (init v age) s = (.ok (), t) ∧ WellFormed t ∧ t.nodes.Sorted lt
      ∧ t.nodes.vals.Perm v ∧ t.extra.aging = age := by
  have hsorted : s.nodes.Sorted lt := by
    rw [Nodes.Sorted, hs.nodes]
    exact List.Pairwise.nil
  obtain ⟨hw, hsorted', hperm, -⟩ := init_loads hs.wellFormed hsorted hv.keys hs.absent (hs.sum hv)
  rw [hs.vals, List.append_nil] at hperm
  exact ⟨_, outcome_modify _ s, ⟨hw.mapped, hw.keys, hw.sum⟩, hsorted', hperm, rfl⟩

theorem backup_eq (t : State) :
    ∃ u, outcome backup t = (.ok (t.nodes.vals, t.extra.aging), u) ∧ u.Empty :=
  ⟨_, rfl, Memory.empty_cleared t⟩

theorem pairwise_vals (hs : s.nodes.Sorted lt) :
    s.nodes.vals.Pairwise fun a b => lt a b = true :=
  List.pairwise_map.2 hs

/-- A set has one order. -/
theorem vals_eq (hs : s.nodes.Sorted lt) (ht : t.nodes.Sorted lt)
    (h : t.nodes.vals.Perm s.nodes.vals) : t.nodes.vals = s.nodes.vals := by
  refine h.eq_of_pairwise (fun a b _ _ hab hba => ?_) (pairwise_vals ht) (pairwise_vals hs)
  exact absurd ((lt_iff a b).1 hab) ((lt_iff b a).1 hba).asymm

theorem restored (hs : WellFormed s) (hsorted : s.nodes.Sorted lt) {e : State} (he : e.Empty) :
    ∃ v age t u, outcome backup s = (.ok (v, age), t) ∧ outcome (init v age) e = (.ok (), u)
      ∧ policy.Restored s u ∧ u.extra.aging = s.extra.aging := by
  obtain ⟨u, hinit, hw, hu, hperm, hage⟩ :=
    init_sorted s.extra.aging he (Memory.distinct_vals hs)
  exact ⟨_, _, _, u, rfl, hinit, ⟨hw, vals_eq hsorted hu hperm, Memory.cacheSize_eq hw hs hperm⟩,
    hage⟩

end MemoryLfuda

/-! ## The two are inverse -/

/-- `backup` returns what `init` has loaded, sorted in the LFUDA, and `init` restores what `backup`
has saved. -/
theorem init_backup_inverse :
    (∀ (s : MemoryLru.State) (v : List MemoryLru.Cache), s.Empty → Memory.Distinct v →
      ∃ t u, outcome (MemoryLru.init v) s = (.ok (), t) ∧ t.Holds v
        ∧ outcome MemoryLru.backup t = (.ok v, u) ∧ u.Empty)
    ∧ (∀ s e : MemoryLru.State, WellFormed s → e.Empty →
      ∃ v t u, outcome MemoryLru.backup s = (.ok v, t)
        ∧ outcome (MemoryLru.init v) e = (.ok (), u) ∧ MemoryLru.policy.Restored s u)
    ∧ (∀ (s : MemoryLfuda.State) (v : List MemoryLfuda.Cache) (age : UInt64), s.Empty →
      Memory.Distinct v →
      ∃ t l u, outcome (MemoryLfuda.init v age) s = (.ok (), t) ∧ t.Holds l
        ∧ outcome MemoryLfuda.backup t = (.ok (l, age), u) ∧ u.Empty
        ∧ l.Perm v ∧ l.Pairwise fun a b => MemoryLfuda.lt a b = true)
    ∧ (∀ s e : MemoryLfuda.State, WellFormed s → s.nodes.Sorted MemoryLfuda.lt → e.Empty →
      ∃ v age t u, outcome MemoryLfuda.backup s = (.ok (v, age), t)
        ∧ outcome (MemoryLfuda.init v age) e = (.ok (), u) ∧ MemoryLfuda.policy.Restored s u
        ∧ u.extra.aging = s.extra.aging) := by
  refine ⟨fun s v hs hv => ?_, fun s e hs he => MemoryLru.restored hs he, fun s v age hs hv => ?_,
    fun s e hs hsorted he => MemoryLfuda.restored hs hsorted he⟩
  · obtain ⟨t, hinit, ht⟩ := MemoryLru.init_holds hs hv
    obtain ⟨u, hbackup, hu⟩ := MemoryLru.backup_holds ht
    exact ⟨t, u, hinit, ht, hbackup, hu⟩
  · obtain ⟨t, hinit, hw, hsorted, hperm, hage⟩ := MemoryLfuda.init_sorted age hs hv
    obtain ⟨u, hbackup, hu⟩ := MemoryLfuda.backup_eq t
    rw [hage] at hbackup
    exact ⟨t, _, u, hinit, ⟨hw, rfl⟩, hbackup, hu, hperm, MemoryLfuda.pairwise_vals hsorted⟩

/-- Two entries, loaded into a new object and saved, and saved and loaded into another. -/
theorem init_backup_inverse_two :
    let v : List MemoryLru.Cache := [⟨[97], 1, 0, [], ()⟩, ⟨[98], 2, 0, [], ()⟩]
    let v' : List MemoryLfuda.Cache := [⟨[97], 1, 0, [], ⟨1, 0, 3⟩⟩, ⟨[98], 2, 0, [], ⟨1, 0, 2⟩⟩]
    let s := (outcome (MemoryLru.init v) (MemoryLru.start 10)).2
    let s' := (outcome (MemoryLfuda.init v' 1) (MemoryLfuda.start 10)).2
    (∃ t u, outcome (MemoryLru.init v) (MemoryLru.start 10) = (.ok (), t) ∧ t.Holds v
        ∧ outcome MemoryLru.backup t = (.ok v, u) ∧ u.Empty)
      ∧ (∃ w t u, outcome MemoryLru.backup s = (.ok w, t)
        ∧ outcome (MemoryLru.init w) (MemoryLru.start 10) = (.ok (), u)
        ∧ MemoryLru.policy.Restored s u)
      ∧ (∃ t l u, outcome (MemoryLfuda.init v' 1) (MemoryLfuda.start 10) = (.ok (), t) ∧ t.Holds l
        ∧ outcome MemoryLfuda.backup t = (.ok (l, 1), u) ∧ u.Empty
        ∧ l.Perm v' ∧ l.Pairwise fun a b => MemoryLfuda.lt a b = true)
      ∧ ∃ w age t u, outcome MemoryLfuda.backup s' = (.ok (w, age), t)
        ∧ outcome (MemoryLfuda.init w age) (MemoryLfuda.start 10) = (.ok (), u)
        ∧ MemoryLfuda.policy.Restored s' u ∧ u.extra.aging = s'.extra.aging := by
  intro v v' s s'
  have he : (MemoryLru.start 10).Empty := ⟨rfl, rfl, rfl⟩
  have he' : (MemoryLfuda.start 10).Empty := ⟨rfl, rfl, rfl⟩
  have hv : Memory.Distinct v := ⟨by decide, by decide⟩
  have hv' : Memory.Distinct v' := ⟨by decide, by decide⟩
  have hs : WellFormed s := by
    obtain ⟨t, hinit, ht⟩ := MemoryLru.init_holds he hv
    have heq : s = t := congrArg Prod.snd hinit
    exact heq ▸ ht.wellFormed
  have hs' : WellFormed s' ∧ s'.nodes.Sorted MemoryLfuda.lt := by
    obtain ⟨t, hinit, hw, hsorted, -⟩ := MemoryLfuda.init_sorted 1 he' hv'
    have heq : s' = t := congrArg Prod.snd hinit
    exact heq ▸ ⟨hw, hsorted⟩
  obtain ⟨h1, h2, h3, h4⟩ := init_backup_inverse
  exact ⟨h1 _ v he hv, h2 s _ hs he, h3 _ v' 1 he' hv', h4 s' _ hs'.1 hs'.2 he'⟩

end XCache
