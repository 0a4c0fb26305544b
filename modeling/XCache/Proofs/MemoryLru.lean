import XCache.MemoryLru
import XCache.Proofs.MemoryCache

/-!
# The in-memory LRU's representation

Every call keeps `cache_map`, `cache_list` and `cache_size` consistent, with one exception. A `put`
of a resident key does not renew it before it makes room for the larger size, so the loop of
`remove_cache` may come to the very entry that is to grow; `update_size` then goes on with the
iterator of an erased node. It does not come so far exactly if the entry fits together with those
used more recently.
-/

namespace XCache

namespace MemoryLru

/-- What a call of a run is asked: entries `init` may be given, sums that do not wrap, and that it
is no `update`. -/
def Admits (s : State) : Op → Prop
  | .init cs _ => s.Loadable cs
  | .call (.put c) => s.NoWrap c.key c.size
  | .call (.renew _ _) => True
  | .call (.update _ _) => False
  | .call (.resize _) => True
  | .call (.query _) => True
  | .call .backup => True

instance (s : State) : (op : Op) → Decidable (Admits s op)
  | .init cs _ => inferInstanceAs (Decidable (s.Loadable cs))
  | .call (.put c) => inferInstanceAs (Decidable (s.NoWrap c.key c.size))
  | .call (.renew _ _) => inferInstanceAs (Decidable True)
  | .call (.update _ _) => inferInstanceAs (Decidable False)
  | .call (.resize _) => inferInstanceAs (Decidable True)
  | .call (.query _) => inferInstanceAs (Decidable True)
  | .call .backup => inferInstanceAs (Decidable True)

/-- The entry that a `put` makes grow fits together with those used more recently. -/
def Fits (s : State) : Op → Prop
  | .call (.put c) => c.key ≠ [] → policy.GrowthFits s c.key c.size
  | _ => True

instance (s : State) : (op : Op) → Decidable (Fits s op)
  | .call (.put c) => inferInstanceAs (Decidable (c.key ≠ [] → policy.GrowthFits s c.key c.size))
  | .init _ _ => inferInstanceAs (Decidable True)
  | .call (.renew _ _) => inferInstanceAs (Decidable True)
  | .call (.update _ _) => inferInstanceAs (Decidable True)
  | .call (.resize _) => inferInstanceAs (Decidable True)
  | .call (.query _) => inferInstanceAs (Decidable True)
  | .call .backup => inferInstanceAs (Decidable True)

variable {s : State} {n : Node Cache} {it : ℕ} {size : UInt64}

theorem size_eq_zero (s : State) (_ : WellFormed s) : policy.size s = 0 ↔ s.nodes.nodes = [] :=
  List.length_eq_zero_iff

/-- The entry of the node `n`, grown. -/
def grown (s : State) (n : Node Cache) (size : UInt64) : State :=
  { s with
    cacheSize := s.cacheSize - n.val.size + size
    nodes := s.nodes.modify n.addr fun c => { c with size := size } }

/-! ## What the functions do -/

/-- `update_size` of an entry that grows: it is there when its room has been made, or it is not. -/
theorem updateSize_eq (hs : WellFormed s) (hn : n ∈ s.nodes.nodes) (hlt : n.val.size < size) :
    (n ∉ policy.dropped s (size - n.val.size) →
      outcome (updateSize n.addr size) s
        = (.ok (), grown (policy.shrink s (size - n.val.size)) n size))
      ∧ (n ∈ policy.dropped s (size - n.val.size) →
        outcome (updateSize n.addr size) s
          = (.error .dangling, policy.shrink s (size - n.val.size))) := by
  have hleft := MemoryPolicy.shrink_left (P := policy) hs (size - n.val.size)
  have hroom := MemoryPolicy.removeCache_eq size_eq_zero hs (size - n.val.size)
  unfold updateSize removeCache
  rw [outcome_bind_ok (Memory.deref_eq hn rfl)]
  simp only [gt_iff_lt, if_pos hlt]
  rw [outcome_bind_ok hroom]
  refine ⟨fun h => ?_, fun h => ?_⟩
  · rw [outcome_bind_ok (Memory.deref_eq (hleft.mem.2 ⟨hn, h⟩) rfl)]
    rfl
  · refine outcome_bind_error (Memory.deref_erased fun m hm ha => ?_) _
    obtain ⟨hms, hmD⟩ := hleft.mem.1 hm
    rw [Nodes.eq_of_addr hms hn ha] at hmD
    exact hmD h

section Put

variable {c : Cache}

theorem put_keyNull (h : c.key = []) :
    outcome (put c) s = (.error (.algo .cacheKeyNull), s) :=
  outcome_bind_throws h _ _ s

theorem put_zero (hk : c.key ≠ []) (h : c.size = 0) : outcome (put c) s = (.ok false, s) := by
  rw [put, outcome_bind_throwIf hk, if_pos h]
  rfl

theorem put_absent (hs : WellFormed s) (hk : c.key ≠ []) (hz : c.size ≠ 0)
    (hl : s.map.lookup c.key = none) :
    outcome (put c) s = (.ok true, pushFront (policy.shrink s c.size) c) := by
  rw [put, outcome_bind_throwIf hk, if_neg hz, outcome_bind_ok (outcome_get s), hl]
  exact outcome_bind_ok (MemoryPolicy.removeCache_eq size_eq_zero hs c.size) _

theorem put_resident (hs : WellFormed s) (hk : c.key ≠ []) (hz : c.size ≠ 0)
    (hn : n ∈ s.nodes.nodes) (hkey : n.val.key = c.key) :
    outcome (put c) s =
      if c.size > n.val.size then
        outcome (do
          updateSize n.addr c.size
          return false) s
      else (.ok false, s) := by
  have hl : s.map.lookup c.key = some n.addr := hkey ▸ hs.lookup_mem hn
  rw [put, outcome_bind_throwIf hk, if_neg hz, outcome_bind_ok (outcome_get s), hl]
  simp only []
  rw [outcome_bind_ok (Memory.deref_eq hn rfl)]
  split_ifs <;> rfl

end Put

/-- The object after a renewal. -/
def renewed (s : State) (n : Node Cache) : State :=
  { s with nodes := s.nodes.relink .front n.addr n.val }

theorem renew_absent {key : Bytes} (hl : s.map.lookup key = none) :
    outcome (renew key) s = (.ok false, s) := by
  rw [renew, outcome_bind_ok (outcome_get s), hl]
  rfl

theorem renew_resident {key : Bytes} (hs : WellFormed s) (hn : n ∈ s.nodes.nodes)
    (hkey : n.val.key = key) : outcome (renew key) s = (.ok true, renewed s n) := by
  have hl : s.map.lookup key = some n.addr := hkey ▸ hs.lookup_mem hn
  rw [renew, outcome_bind_ok (outcome_get s), hl]
  simp only []
  rw [outcome_bind_ok (Memory.deref_eq hn rfl)]
  rfl

/-! ## What they keep -/

theorem wellFormed_pushFront (hs : WellFormed s) {c : Cache} (hl : s.map.lookup c.key = none)
    (hsum : s.cacheSize.toNat + c.size.toNat < 2 ^ 64) : WellFormed (pushFront s c) := by
  refine hs.insert (n := ⟨s.nodes.next, c⟩) Nodes.perm_insert hl rfl ?_
  show (s.cacheSize + c.size).toNat = _
  rw [UInt64.toNat_add, Nat.mod_eq_of_lt hsum]

/-- `init` puts the entries in front of the list, in their order. -/
theorem init_loads {caches : List Cache} (hs : WellFormed s) (hkeys : (caches.map Cache.key).Nodup)
    (habsent : ∀ c ∈ caches, s.map.lookup c.key = none)
    (hsum : s.cacheSize.toNat + (caches.map fun c => c.size.toNat).sum < 2 ^ 64) :
    WellFormed (caches.reverse.foldl pushFront s)
      ∧ (caches.reverse.foldl pushFront s).nodes.vals = caches ++ s.nodes.vals := by
  refine load_keeps (I := fun l t => WellFormed t ∧ t.nodes.vals = l ++ s.nodes.vals)
    (fun l t c ht hl hsum => ⟨⟨wellFormed_pushFront ht.1 hl hsum, ?_⟩, fun key hk => ?_, ?_⟩)
    ⟨hs, rfl⟩ hkeys habsent hsum
  · exact congrArg (c :: ·) ht.2
  · exact AList.lookup_insert_ne hk
  · show (t.cacheSize + c.size).toNat = _
    rw [UInt64.toNat_add, Nat.mod_eq_of_lt hsum]

theorem wellFormed_init {caches : List Cache} (hs : WellFormed s) (hc : s.Loadable caches) :
    WellFormed (caches.reverse.foldl pushFront s) :=
  (init_loads hs hc.nodup hc.absent hc.sum).1

theorem wellFormed_grown (hs : WellFormed s) (hn : n ∈ s.nodes.nodes) (hlt : n.val.size < size)
    (hsum : s.cacheSize.toNat + (size.toNat - n.val.size.toNat) < 2 ^ 64) :
    WellFormed (grown s n size) := by
  have hle := hs.size_le hn
  have hlt' := UInt64.lt_iff_toNat_lt.1 hlt
  refine hs.replace hn (c := { n.val with size := size }) rfl (Nodes.perm_modify hn _)
    (fun _ => rfl) ?_
  show (s.cacheSize - n.val.size + size).toNat + n.val.size.toNat = _
  rw [UInt64.toNat_add, UInt64.toNat_sub_of_le _ _ (UInt64.le_iff_toNat_le.2 hle),
    Nat.mod_eq_of_lt (by omega)]
  show _ = s.cacheSize.toNat + size.toNat
  omega

theorem wellFormed_renewed (hs : WellFormed s) (hn : n ∈ s.nodes.nodes) :
    WellFormed (renewed s n) :=
  hs.replace hn rfl (Nodes.perm_relink (s.nodes.lt_next n hn)) (fun _ => rfl) rfl

/-! ## Runs -/

theorem put_fares {c : Cache} (hs : WellFormed s) (ha : s.NoWrap c.key c.size) :
    Fares WellFormed (c.key ≠ [] → policy.GrowthFits s c.key c.size) (put c) s := by
  by_cases hk : c.key = []
  · exact .of_outcome (put_keyNull hk) (.inr ⟨_, rfl⟩) hs fun h => absurd hk h
  by_cases hz : c.size = 0
  · refine .returns (put_zero hk hz) hs fun _ n _ _ hlt => ?_
    rw [hz, UInt64.lt_iff_toNat_lt] at hlt
    simp at hlt
  rcases hl : s.map.lookup c.key with _ | it
  · have hleft := MemoryPolicy.shrink_left (P := policy) hs c.size
    have hnone := hs.lookup_eq_none.1 hl
    have hsum := ha.1 hl
    have hle := hleft.cacheSize_le
    refine .returns (put_absent hs hk hz hl) ?_ fun _ => MemoryPolicy.growthFits_of_absent hs hl
    refine wellFormed_pushFront hleft.wellFormed ?_ (by omega)
    exact hleft.wellFormed.lookup_eq_none.2 fun n hn => hnone n (hleft.mem.1 hn).1
  · obtain ⟨n, hn, hkn, -, -⟩ := hs.find_lookup hl
    have hsum := ha.2 n hn hkn
    have hput := put_resident hs hk hz hn hkn
    by_cases hlt : n.val.size < c.size
    · rw [if_pos hlt] at hput
      have honly : (c.key ≠ [] → policy.GrowthFits s c.key c.size)
          ↔ n ∉ policy.dropped s (c.size - n.val.size) := by
        rw [MemoryPolicy.not_mem_dropped_iff hs hn hlt hsum]
        refine ⟨fun h => h hk n hn hkn hlt, fun h _ m hm hkm hlt => ?_⟩
        obtain rfl := hs.eq_of_key hm hn (hkm.trans hkn.symm)
        exact h
      obtain ⟨hfits, hdangles⟩ := updateSize_eq hs hn hlt
      have hleft := MemoryPolicy.shrink_left (P := policy) hs (c.size - n.val.size)
      have hle := hleft.cacheSize_le
      by_cases hD : n ∈ policy.dropped s (c.size - n.val.size)
      · refine ⟨fun h => absurd hD (honly.1 h), fun h => absurd hD (honly.1 h), fun _ => ?_⟩
        rw [hput, outcome_bind_error (hdangles hD)]
      · refine .returns (hput.trans (outcome_bind_ok (hfits hD) _)) ?_ (honly.2 hD)
        exact wellFormed_grown hleft.wellFormed (hleft.mem.2 ⟨hn, hD⟩) hlt (by omega)
    · rw [if_neg hlt] at hput
      exact .returns hput hs fun _ => MemoryPolicy.growthFits_of_le hs hn hkn hlt

/-- One call: it keeps the representation and its behaviour is defined if it fits, and otherwise it
dereferences an erased node. -/
theorem call_fares {op : Op} (hs : WellFormed s) (ha : Admits s op) :
    Fares WellFormed (Fits s op) (call op) s := by
  rcases op with ⟨cs, _⟩ | op
  · exact (Fares.returns (outcome_modify _ s) (wellFormed_init hs ha) trivial).map _
  cases op with
  | put c => exact (put_fares hs ha).map _
  | renew k _ =>
    refine Fares.map ?_ _
    rcases hl : s.map.lookup k with _ | it
    · exact .returns (renew_absent hl) hs trivial
    · obtain ⟨n, hn, hk, -, -⟩ := hs.find_lookup hl
      exact .returns (renew_resident hs hn hk) (wellFormed_renewed hs hn) trivial
  | update _ _ => exact ha.elim
  | resize n =>
    refine Fares.map ?_ _
    by_cases hn : n = 0
    · subst hn
      exact .of_outcome (policy.resize_zero s) (.inr ⟨_, rfl⟩) hs trivial
    · have hs' := hs.limit n
      exact .returns (MemoryPolicy.resize_eq size_eq_zero hs hn)
        (MemoryPolicy.shrink_left hs' 0).wellFormed trivial
  | query k => exact (policy.query_fares hs hs trivial).map _
  | backup => exact (Fares.returns rfl (WellFormed.cleared s) trivial).map _

/-- A run of a new object in which the representation holds in every state reached, and every call
has defined behaviour: none dereferences an iterator whose node has been erased. -/
def Sane (M : UInt64) (ops : List Op) : Prop :=
  (∀ before after, ops = before ++ after → WellFormed (run step (start M) before).2)
    ∧ ∀ o ∈ (run step (start M) ops).1, Defined o

/-- A run is sane exactly if every entry that a `put` makes grow fits together with the entries
used more recently. -/
theorem sane_iff_recent_fit (M : UInt64) (ops : List Op) (hops : RunOk step Admits (start M) ops) :
    Sane M ops ↔ RunOk step Fits (start M) ops := by
  exact run_iff (I := WellFormed) (O := Defined)
    (fun s op hs ha hf => ⟨(call_fares hs ha).keeps hf, (call_fares hs ha).defined hf⟩)
    (fun s op hs ha hf => (call_fares hs ha).not_defined hf) (WellFormed.construct M ()) hops

/-- The second file evicts the one loaded first, and then grows beside the third. -/
theorem sane_iff_recent_fit_ten :
    let ops : List Op := [.init [⟨[97], 3, 0, [], ()⟩] (), .call (.put ⟨[98], 8, 0, [], ()⟩),
      .call (.put ⟨[99], 1, 0, [], ()⟩), .call (.put ⟨[98], 9, 0, [], ()⟩)]
    Sane 10 ops ↔ RunOk step Fits (start 10) ops :=
  sane_iff_recent_fit 10 _ (by decide)

/-- A file of size 5 is put again with size 20, into a cache of size 10: to make room, the loop
evicts the file itself. -/
theorem put_dangles :
    ¬ ∀ (M : UInt64) (ops : List Op), M ≠ 0 → RunOk step Admits (start M) ops → Sane M ops := by
  intro h
  have hsane := h 10 [.call (.put ⟨[97], 5, 0, [], ()⟩), .call (.put ⟨[97], 20, 0, [], ()⟩)]
    (by decide) (by decide)
  have hlast := hsane.2 (.error .dangling) (by decide)
  simp [Defined] at hlast

end MemoryLru

end XCache
