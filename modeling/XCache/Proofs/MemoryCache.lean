import XCache.MemoryInvariant

/-!
# The representation of an in-memory cache

What the operations do to the nodes keeps the representation: a node that comes in
(`WellFormed.insert`), one that is put back with another value (`WellFormed.replace`), one that is
evicted (`WellFormed.evictOne`). From the last, by induction, what `remove_cache` does
(`removeCache_eq`), and which node its loop spares (`mem_dropped`).
-/

namespace XCache

variable {τ ε : Type} {s t : Memory τ ε} {n m : Node (Cache τ)} {key : Bytes} {it : ℕ}

@[simp] theorem sizes_cons (n : Node (Cache τ)) (l : List (Node (Cache τ))) :
    sizes (n :: l) = n.val.size.toNat + sizes l := by
  simp [sizes]

theorem sizes_perm {l l' : List (Node (Cache τ))} (h : l.Perm l') : sizes l = sizes l' :=
  (h.map _).sum_eq

namespace WellFormed

theorem lookup_mem (hs : WellFormed s) (hn : n ∈ s.nodes.nodes) :
    s.map.lookup n.val.key = some n.addr :=
  (hs.mapped _ _).2 ⟨n, hn, rfl, rfl⟩

/-- The iterator of a key leads to its node. -/
theorem find_lookup (hs : WellFormed s) (h : s.map.lookup key = some it) :
    ∃ n ∈ s.nodes.nodes, n.val.key = key ∧ n.addr = it ∧ s.nodes.find it = some n := by
  obtain ⟨n, hn, hk, ha⟩ := (hs.mapped key it).1 h
  exact ⟨n, hn, hk, ha, Nodes.find_eq_some.2 ⟨hn, ha⟩⟩

theorem lookup_eq_none (hs : WellFormed s) :
    s.map.lookup key = none ↔ ∀ n ∈ s.nodes.nodes, n.val.key ≠ key := by
  refine ⟨fun h n hn hk => ?_, fun h => ?_⟩
  · have hsome := hs.lookup_mem hn
    rw [hk, h] at hsome
    simp at hsome
  · rcases hl : s.map.lookup key with _ | it
    · rfl
    · obtain ⟨n, hn, hk, -⟩ := hs.find_lookup hl
      exact absurd hk (h n hn)

theorem eq_of_key (hs : WellFormed s) (hn : n ∈ s.nodes.nodes) (hm : m ∈ s.nodes.nodes)
    (h : n.val.key = m.val.key) : n = m :=
  List.inj_on_of_nodup_map hs.keys hn hm h

theorem size_le (hs : WellFormed s) (hn : n ∈ s.nodes.nodes) :
    n.val.size.toNat ≤ s.cacheSize.toNat := by
  have hp := sizes_perm (Nodes.perm_erase hn)
  rw [sizes_cons] at hp
  have hsum := hs.sum
  omega

/-- A new entry. -/
theorem insert (hs : WellFormed s) (hp : t.nodes.nodes.Perm (n :: s.nodes.nodes))
    (hk : s.map.lookup n.val.key = none) (hmap : t.map = s.map.insert n.val.key n.addr)
    (hsum : t.cacheSize.toNat = s.cacheSize.toNat + n.val.size.toNat) : WellFormed t where
  mapped key it := by
    rw [hmap]
    simp only [hp.mem_iff, List.mem_cons, exists_eq_or_imp]
    by_cases hkey : key = n.val.key
    · subst hkey
      rw [AList.lookup_insert, Option.some.injEq]
      have hnone := hs.lookup_eq_none.1 hk
      refine ⟨fun h => .inl ⟨rfl, h⟩, ?_⟩
      rintro (⟨-, h⟩ | ⟨m, hm, hkm, -⟩)
      · exact h
      · exact absurd hkm (hnone m hm)
    · rw [AList.lookup_insert_ne hkey, hs.mapped]
      simp [Ne.symm hkey]
  keys := by
    rw [(hp.map _).nodup_iff, List.map_cons, List.nodup_cons, List.mem_map]
    refine ⟨fun ⟨m, hm, h⟩ => ?_, hs.keys⟩
    exact hs.lookup_eq_none.1 hk m hm h
  sum := by
    rw [hsum, sizes_perm hp, sizes_cons, hs.sum, Nat.add_comm]

/-- An entry put back into its node, perhaps with another value. -/
theorem replace (hs : WellFormed s) (hn : n ∈ s.nodes.nodes) {c : Cache τ}
    (hk : c.key = n.val.key)
    (hp : t.nodes.nodes.Perm (⟨n.addr, c⟩ :: (s.nodes.erase n.addr).nodes))
    (hmap : ∀ key, t.map.lookup key = s.map.lookup key)
    (hsum : t.cacheSize.toNat + n.val.size.toNat = s.cacheSize.toNat + c.size.toNat) :
    WellFormed t where
  mapped key it := by
    have hold := hs.mapped key it
    simp only [(Nodes.perm_erase hn).mem_iff, List.mem_cons, exists_eq_or_imp] at hold
    rw [hmap, hold]
    simp only [hp.mem_iff, List.mem_cons, exists_eq_or_imp, hk]
  keys := by
    have hold := ((Nodes.perm_erase hn).map fun n => n.val.key).nodup_iff.1 hs.keys
    rw [(hp.map _).nodup_iff, List.map_cons, hk]
    exact hold
  sum := by
    have hold := hs.sum
    rw [sizes_perm (Nodes.perm_erase hn), sizes_cons] at hold
    rw [sizes_perm hp, sizes_cons]
    show t.cacheSize.toNat = c.size.toNat + _
    omega

theorem limit (hs : WellFormed s) (size : UInt64) : WellFormed { s with maxSize := size } :=
  ⟨hs.mapped, hs.keys, hs.sum⟩

theorem cleared (s : Memory τ ε) :
    WellFormed { s with nodes := s.nodes.clear, map := ∅, cacheSize := 0 } where
  mapped key it := by simp [Nodes.clear]
  keys := List.nodup_nil
  sum := rfl

theorem construct (M : UInt64) (x : ε) : WellFormed (Memory.construct M x : Memory τ ε) where
  mapped key it := by simp [Memory.construct, Nodes.empty]
  keys := List.nodup_nil
  sum := rfl

theorem evictOne (hs : WellFormed s) (P : MemoryPolicy τ ε) (hn : n ∈ s.nodes.nodes) :
    WellFormed (P.evictOne s n) where
  mapped key it := by
    show (s.map.erase n.val.key).lookup key = some it ↔ ∃ m ∈ (s.nodes.erase n.addr).nodes, _
    simp only [Nodes.mem_erase]
    by_cases hkey : key = n.val.key
    · rw [hkey, AList.lookup_erase]
      simp only [reduceCtorEq, false_iff]
      rintro ⟨m, ⟨hm, hne⟩, hk, -⟩
      exact hne (by rw [hs.eq_of_key hm hn hk])
    · rw [AList.lookup_erase_ne hkey, hs.mapped]
      refine ⟨fun ⟨m, hm, hk, ha⟩ => ⟨m, ⟨hm, fun h => hkey ?_⟩, hk, ha⟩, fun ⟨m, hm, h⟩ =>
        ⟨m, hm.1, h⟩⟩
      rw [← hk, Nodes.eq_of_addr hm hn h]
  keys := hs.keys.sublist (List.filter_sublist.map _)
  sum := by
    have hold := hs.sum
    have hle := hs.size_le hn
    rw [sizes_perm (Nodes.perm_erase hn), sizes_cons] at hold
    show (s.cacheSize - n.val.size).toNat = sizes (s.nodes.erase n.addr).nodes
    rw [UInt64.toNat_sub_of_le _ _ (UInt64.le_iff_toNat_le.2 hle)]
    omega

end WellFormed

/-- `init` loads the entries one after the other, from the last on, each under a key that is new:
what is loaded so far is a suffix of the entries. -/
theorem load_keeps {I : List (Cache τ) → Memory τ ε → Prop}
    {load : Memory τ ε → Cache τ → Memory τ ε}
    (hload : ∀ l s c, I l s → s.map.lookup c.key = none →
      s.cacheSize.toNat + c.size.toNat < 2 ^ 64 →
      I (c :: l) (load s c) ∧ (∀ key ≠ c.key, (load s c).map.lookup key = s.map.lookup key)
        ∧ (load s c).cacheSize.toNat = s.cacheSize.toNat + c.size.toNat)
    {caches : List (Cache τ)} (hs : I [] s) (hkeys : (caches.map Cache.key).Nodup)
    (habsent : ∀ c ∈ caches, s.map.lookup c.key = none)
    (hsum : s.cacheSize.toNat + (caches.map fun c => c.size.toNat).sum < 2 ^ 64) :
    I caches (caches.reverse.foldl load s) := by
  suffices H : I caches (caches.reverse.foldl load s)
      ∧ (∀ key, (∀ c ∈ caches, c.key ≠ key) →
        (caches.reverse.foldl load s).map.lookup key = s.map.lookup key)
      ∧ (caches.reverse.foldl load s).cacheSize.toNat
        = s.cacheSize.toNat + (caches.map fun c => c.size.toNat).sum from H.1
  induction caches with
  | nil => exact ⟨hs, fun _ _ => rfl, rfl⟩
  | cons c l ih =>
    rw [List.map_cons, List.nodup_cons, List.mem_map] at hkeys
    rw [List.map_cons, List.sum_cons] at hsum
    obtain ⟨hI, hlookup, hsize⟩ := ih hkeys.2
      (fun d hd => habsent d (List.mem_cons_of_mem _ hd)) (by omega)
    have hnew : (l.reverse.foldl load s).map.lookup c.key = none := by
      rw [hlookup c.key fun d hd hk => hkeys.1 ⟨d, hd, hk⟩]
      exact habsent c List.mem_cons_self
    obtain ⟨h1, h2, h3⟩ := hload l _ c hI hnew (by omega)
    rw [List.reverse_cons, List.foldl_append, List.foldl_cons, List.foldl_nil, List.map_cons,
      List.sum_cons]
    refine ⟨h1, fun key hkey => ?_, by omega⟩
    obtain ⟨hc, hl⟩ := List.forall_mem_cons.1 hkey
    rw [h2 key hc.symm, hlookup key hl]

/-! ## Iterators -/

namespace Memory

theorem deref_eq (hn : n ∈ s.nodes.nodes) (hit : n.addr = it) :
    outcome (deref it) s = (.ok n.val, s) := by
  rw [deref, outcome_bind_ok (outcome_get s), Nodes.find_eq_some.2 ⟨hn, hit⟩]
  rfl

theorem deref_erased (h : ∀ n ∈ s.nodes.nodes, n.addr ≠ it) :
    outcome (deref it) s = (.error .dangling, s) := by
  rw [deref, outcome_bind_ok (outcome_get s), Nodes.find_eq_none.2 h]
  rfl

end Memory

/-! ## How a call fares -/

namespace Fares

variable {ρ ρ' : Type} {I : Memory τ ε → Prop} {p : Prop} {x : MemoryCall τ ε ρ}
  {r : Except MemoryError ρ}

/-- A program that returns or throws. -/
theorem of_outcome (hx : outcome x s = (r, t)) (hr : Defined r) (ht : I t) (hp : p) :
    Fares I p x s := by
  refine ⟨fun _ => ?_, fun _ => ?_, fun h => absurd hp h⟩
  · rw [hx]
    exact ht
  · rw [hx]
    exact hr

theorem returns {v : ρ} (hx : outcome x s = (.ok v, t)) (ht : I t) (hp : p) : Fares I p x s :=
  of_outcome hx (.inl ⟨v, rfl⟩) ht hp

theorem map (h : Fares I p x s) (f : ρ → ρ') : Fares I p (f <$> x) s := by
  have hx : outcome (f <$> x) s = ((outcome x s).1.map f, (outcome x s).2) := outcome_map f rfl
  refine ⟨fun hp => ?_, fun hp => ?_, fun hp => ?_⟩
  · rw [hx]
    exact h.keeps hp
  · rw [hx]
    rcases h.defined hp with ⟨v, hv⟩ | ⟨e, he⟩
    · exact .inl ⟨f v, by rw [hv]; rfl⟩
    · exact .inr ⟨e, by rw [he]; rfl⟩
  · rw [hx, h.dangles hp]
    rfl

theorem congr {q : Prop} (h : Fares I p x s) (hpq : p ↔ q) : Fares I q x s := by
  rwa [← hpq]

/-- The calls that always fare well are those that keep the invariant: the rule for runs. -/
theorem not_defined (h : Fares I p x s) (hp : ¬ p) : ¬ Defined (outcome x s).1 := by
  rw [h.dangles hp]
  simp [Defined]

end Fares

/-! ## `remove_cache` -/

namespace MemoryPolicy

variable {P : MemoryPolicy τ ε} {need : UInt64} {rest : List (Node (Cache τ))}

theorem mem_order : n ∈ P.order s.nodes.nodes ↔ n ∈ s.nodes.nodes :=
  (P.order_perm _).mem_iff

theorem nodup_order (s : Memory τ ε) : ((P.order s.nodes.nodes).map Node.addr).Nodup :=
  ((P.order_perm _).map Node.addr).nodup_iff.2 s.nodes.nodup

theorem order_erase (h : P.order s.nodes.nodes = n :: rest) :
    P.order (s.nodes.erase n.addr).nodes = rest := by
  have hnodup := nodup_order (P := P) s
  rw [h, List.map_cons, List.nodup_cons] at hnodup
  show P.order (s.nodes.nodes.filter _) = rest
  rw [P.order_filter, h, List.filter_cons_of_neg (by simp)]
  refine List.filter_eq_self.2 fun m hm => ?_
  have hne : m.addr ≠ n.addr := fun h => hnodup.1 (h ▸ List.mem_map_of_mem hm)
  simpa using hne

theorem dropped_nil (h : P.order s.nodes.nodes = []) : P.dropped s need = [] := by
  rw [dropped, h]
  rfl

theorem dropped_fits (h : ¬ s.cacheSize + need > s.maxSize) : P.dropped s need = [] := by
  rcases ho : P.order s.nodes.nodes with _ | ⟨n, rest⟩
  · exact dropped_nil ho
  · rw [dropped, ho, shed, if_neg h]

theorem dropped_cons (ho : P.order s.nodes.nodes = n :: rest)
    (h : s.cacheSize + need > s.maxSize) :
    P.dropped s need = n :: P.dropped (P.evictOne s n) need := by
  have hrest : P.order (P.evictOne s n).nodes.nodes = rest := order_erase ho
  rw [dropped, ho, shed, if_pos h, dropped, hrest]
  rfl

theorem dropped_isPrefix (s : Memory τ ε) (need : UInt64) :
    P.dropped s need <+: P.order s.nodes.nodes := by
  suffices H : ∀ (l : List (Node (Cache τ))) (held : UInt64),
      shed s.maxSize need held l <+: l from H _ _
  intro l
  induction l with
  | nil => simp [shed]
  | cons n l ih =>
    intro held
    by_cases h : held + need > s.maxSize
    · rw [shed, if_pos h]
      exact (List.prefix_cons_inj n).2 (ih _)
    · rw [shed, if_neg h]
      exact List.nil_prefix

/-- What is left of `s` when the nodes `D` are gone. -/
structure Left (P : MemoryPolicy τ ε) (s : Memory τ ε) (D : List (Node (Cache τ)))
    (t : Memory τ ε) : Prop where
  wellFormed : WellFormed t
  order : P.order s.nodes.nodes = D ++ P.order t.nodes.nodes
  sublist : t.nodes.nodes.Sublist s.nodes.nodes
  next : t.nodes.next = s.nodes.next
  maxSize : t.maxSize = s.maxSize
  cacheSize_le : t.cacheSize.toNat ≤ s.cacheSize.toNat

theorem evict_left (hs : WellFormed s) {D : List (Node (Cache τ))}
    (hD : D <+: P.order s.nodes.nodes) : Left P s D (P.evict s D) := by
  induction D generalizing s with
  | nil => exact ⟨hs, rfl, List.Sublist.refl _, rfl, rfl, le_rfl⟩
  | cons n D ih =>
    obtain ⟨rest, hrest⟩ := hD
    have ho : P.order s.nodes.nodes = n :: (D ++ rest) := hrest.symm
    have hn : n ∈ s.nodes.nodes := mem_order.1 (ho ▸ List.mem_cons_self)
    have horder : P.order (P.evictOne s n).nodes.nodes = D ++ rest := order_erase ho
    have hle : (P.evictOne s n).cacheSize.toNat ≤ s.cacheSize.toNat := by
      have hsz := UInt64.le_iff_toNat_le.2 (hs.size_le hn)
      have hsub := UInt64.toNat_sub_of_le _ _ hsz
      show (s.cacheSize - n.val.size).toNat ≤ _
      omega
    have h := ih (hs.evictOne P hn) (horder ▸ List.prefix_append D rest)
    refine ⟨h.wellFormed, ?_, h.sublist.trans List.filter_sublist, h.next, h.maxSize,
      h.cacheSize_le.trans hle⟩
    rw [ho, List.cons_append, ← horder, h.order]
    rfl

theorem shrink_left (hs : WellFormed s) (need : UInt64) :
    Left P s (P.dropped s need) (P.shrink s need) := by
  have h := evict_left hs (dropped_isPrefix (P := P) s need)
  unfold shrink Memory.deliver
  split_ifs
  · exact h
  · exact ⟨⟨h.wellFormed.mapped, h.wellFormed.keys, h.wellFormed.sum⟩, h.order, h.sublist, h.next,
      h.maxSize, h.cacheSize_le⟩

theorem Left.mem {D : List (Node (Cache τ))} (h : Left P s D t) :
    n ∈ t.nodes.nodes ↔ n ∈ s.nodes.nodes ∧ n ∉ D := by
  have hnodup := List.Nodup.of_map _ (nodup_order (P := P) s)
  rw [h.order, List.nodup_append'] at hnodup
  rw [← mem_order (P := P) (s := t), ← mem_order (P := P) (s := s), h.order, List.mem_append]
  refine ⟨fun hn => ⟨.inr hn, fun hD => hnodup.2.2 hD hn⟩, fun ⟨hn, hD⟩ => ?_⟩
  exact hn.resolve_left hD

theorem shrink_of_fits (h : ¬ s.cacheSize + need > s.maxSize) : P.shrink s need = s := by
  rw [shrink, dropped_fits h]
  rfl

theorem evict_fits {l : List (Node (Cache τ))} (hs : WellFormed s) (need : UInt64)
    (hl : P.order s.nodes.nodes = l) :
    (P.evict s (P.dropped s need)).nodes.nodes = []
      ∨ ¬ (P.evict s (P.dropped s need)).cacheSize + need > s.maxSize := by
  induction l generalizing s with
  | nil =>
    have hnil : s.nodes.nodes = [] := List.nil_perm.1 (hl ▸ P.order_perm s.nodes.nodes)
    rw [dropped_nil hl]
    exact .inl hnil
  | cons n l ih =>
    have hn : n ∈ s.nodes.nodes := mem_order.1 (hl ▸ List.mem_cons_self)
    by_cases hover : s.cacheSize + need > s.maxSize
    · rw [dropped_cons hl hover]
      exact ih (hs.evictOne P hn) (order_erase hl)
    · rw [dropped_fits hover]
      exact .inr hover

/-- The loop of `remove_cache` ends when the need fits or nothing is left. -/
theorem shrink_fits (hs : WellFormed s) (need : UInt64) :
    (P.shrink s need).nodes.nodes = [] ∨ ¬ (P.shrink s need).cacheSize + need > s.maxSize := by
  have h := evict_fits (P := P) hs need rfl
  unfold shrink Memory.deliver
  split_ifs
  · exact h
  · exact h

section Loop

variable (hsize : ∀ s, WellFormed s → (P.size s = 0 ↔ s.nodes.nodes = []))
include hsize

theorem removeLoop_eq (need : UInt64) :
    ∀ (fuel : ℕ) (s : Memory τ ε) (removed : List (Cache τ)), WellFormed s →
      s.nodes.nodes.length < fuel →
      outcome (P.removeLoop need fuel removed) s = (.ok (),
        (P.evict s (P.dropped s need)).deliver (removed ++ (P.dropped s need).map Node.val))
  | 0, _, _, _, h => absurd h (Nat.not_lt_zero _)
  | fuel + 1, s, removed, hs, hfuel => by
    have hreport : ∀ removed : List (Cache τ),
        outcome (Memory.report removed) s = (.ok (), s.deliver removed) := by
      intro removed
      unfold Memory.report Memory.deliver
      split_ifs <;> rfl
    rw [removeLoop, outcome_bind_ok (outcome_get s)]
    rcases ho : P.order s.nodes.nodes with _ | ⟨n, rest⟩
    · have hnil : s.nodes.nodes = [] := List.nil_perm.1 (ho ▸ P.order_perm _)
      rw [if_neg (by simp [(hsize s hs).2 hnil]), hreport, dropped_nil ho]
      simp [evict]
    · have hn : n ∈ s.nodes.nodes := mem_order.1 (ho ▸ List.mem_cons_self)
      have hne : P.size s ≠ 0 := fun h => by simp [(hsize s hs).1 h] at hn
      by_cases hover : s.cacheSize + need > s.maxSize
      · have hlen : (P.evictOne s n).nodes.nodes.length + 1 = s.nodes.nodes.length := by
          rw [(Nodes.perm_erase hn).length_eq]
          rfl
        rw [if_pos ⟨hne, hover⟩]
        simp only [List.head?_cons]
        rw [outcome_bind_ok (outcome_modify _ s),
          removeLoop_eq need fuel _ _ (hs.evictOne P hn) (by omega), dropped_cons ho hover]
        simp [evict]
      · rw [if_neg (fun h => hover h.2), hreport, dropped_fits hover]
        simp [evict]

/-- `remove_cache` evicts what has to be evicted, and no more. -/
theorem removeCache_eq (hs : WellFormed s) (need : UInt64) :
    outcome (P.removeCache need) s = (.ok (), P.shrink s need) := by
  rw [removeCache, outcome_bind_ok (outcome_get s),
    removeLoop_eq hsize need _ s [] hs (Nat.lt_succ_self _)]
  rfl

theorem resize_eq (hs : WellFormed s) {size : UInt64} (h : size ≠ 0) :
    outcome (P.resize size) s = (.ok (), P.shrink { s with maxSize := size } 0) := by
  rw [resize, outcome_bind_throwIf h, outcome_bind_ok (outcome_modify _ s)]
  exact removeCache_eq hsize (hs.limit size) 0

end Loop

theorem resize_zero (P : MemoryPolicy τ ε) (s : Memory τ ε) :
    outcome (P.resize 0) s = (.error (.algo .maxSizeZero), s) := rfl

theorem query_absent (P : MemoryPolicy τ ε) (h : s.map.lookup key = none) :
    outcome (P.query key) s = (.ok ⟨[], 0, 0, [], P.zeroFields⟩, s) := by
  rw [query, outcome_bind_ok (outcome_get s), h]
  rfl

theorem query_resident (P : MemoryPolicy τ ε) (hs : WellFormed s) (hn : n ∈ s.nodes.nodes)
    (hkey : n.val.key = key) : outcome (P.query key) s = (.ok n.val, s) := by
  have hl : s.map.lookup key = some n.addr := hkey ▸ hs.lookup_mem hn
  rw [query, outcome_bind_ok (outcome_get s), hl]
  exact Memory.deref_eq hn rfl

/-- `query` reads, and finds what it looks for. -/
theorem query_fares {I : Memory τ ε → Prop} {p : Prop} (P : MemoryPolicy τ ε) (hw : WellFormed s)
    (hs : I s) (hp : p) : Fares I p (P.query key) s := by
  rcases hl : s.map.lookup key with _ | it
  · exact .returns (P.query_absent hl) hs hp
  · obtain ⟨n, hn, hk, -, -⟩ := hw.find_lookup hl
    exact .returns (P.query_resident hw hn hk) hs hp

/-- An entry that is not to grow fits. -/
theorem growthFits_of_le {size : UInt64} (hs : WellFormed s) (hn : n ∈ s.nodes.nodes)
    (hkey : n.val.key = key) (h : ¬ n.val.size < size) : P.GrowthFits s key size := by
  intro m hm hkm hlt
  obtain rfl := hs.eq_of_key hm hn (hkm.trans hkey.symm)
  exact absurd hlt h

theorem growthFits_of_absent {size : UInt64} (hs : WellFormed s) (h : s.map.lookup key = none) :
    P.GrowthFits s key size :=
  fun n hn hk _ => absurd hk (hs.lookup_eq_none.1 h n hn)

/-- A node and those behind it, in a list of nodes. -/
theorem dropWhile_addr {l : List (Node (Cache τ))} (hl : (l.map Node.addr).Nodup) (hn : n ∈ l) :
    ∃ pre, l = pre ++ n :: (l.dropWhile fun m => m.addr ≠ n.addr).tail := by
  induction l with
  | nil => simp at hn
  | cons m l ih =>
    obtain ⟨hm, hl⟩ := List.nodup_cons.1 hl
    rcases List.mem_cons.1 hn with rfl | hn
    · exact ⟨[], by simp⟩
    · have hne : m.addr ≠ n.addr := fun h => hm (h ▸ List.mem_map_of_mem hn)
      obtain ⟨pre, hpre⟩ := ih hl hn
      refine ⟨m :: pre, ?_⟩
      rw [List.dropWhile_cons_of_pos (by simpa using hne), List.cons_append, ← hpre]

/-- Which node the loop of `remove_cache` spares: one that leaves room together with the nodes
behind it. -/
theorem mem_dropped (hs : WellFormed s) (hn : n ∈ s.nodes.nodes)
    (hsum : s.cacheSize.toNat + need.toNat < 2 ^ 64) :
    n ∈ P.dropped s need
      ↔ n.val.size.toNat + sizes (P.behind s n.addr) + need.toNat > s.maxSize.toNat := by
  suffices H : ∀ (l pre post : List (Node (Cache τ))) (held : UInt64), l = pre ++ n :: post →
      n ∉ pre → held.toNat = sizes l → held.toNat + need.toNat < 2 ^ 64 →
      (n ∈ shed s.maxSize need held l
        ↔ n.val.size.toNat + sizes post + need.toNat > s.maxSize.toNat) by
    obtain ⟨pre, hpre⟩ := dropWhile_addr (nodup_order s) (mem_order.2 hn)
    refine H _ pre _ _ hpre (fun h => ?_) ?_ hsum
    · have hnodup := List.Nodup.of_map _ (nodup_order (P := P) s)
      rw [hpre, List.nodup_append'] at hnodup
      exact hnodup.2.2 h List.mem_cons_self
    · rw [hs.sum, sizes_perm (P.order_perm _)]
  intro l
  induction l with
  | nil => simp
  | cons m l ih =>
    intro pre post held hl hpre hheld hlt
    have hover : held + need > s.maxSize ↔ held.toNat + need.toNat > s.maxSize.toNat := by
      rw [gt_iff_lt, UInt64.lt_iff_toNat_lt, UInt64.toNat_add, Nat.mod_eq_of_lt hlt]
    rw [sizes_cons] at hheld
    have hsub : (held - m.val.size).toNat = sizes l := by
      rw [UInt64.toNat_sub_of_le _ _ (UInt64.le_iff_toNat_le.2 (by omega))]
      omega
    rcases pre with _ | ⟨k, pre⟩
    · obtain ⟨rfl, rfl⟩ := List.cons.inj hl
      by_cases h : held + need > s.maxSize
      · have := hover.1 h
        rw [shed, if_pos h]
        simp only [List.mem_cons_self, true_iff]
        omega
      · have := mt hover.2 h
        rw [shed, if_neg h]
        simp only [List.not_mem_nil, false_iff]
        omega
    · obtain ⟨rfl, hrest⟩ := List.cons.inj hl
      have hl : l = pre ++ n :: post := hrest
      have hne : n ≠ m := fun h => hpre (h ▸ List.mem_cons_self)
      have hle : n.val.size.toNat + sizes post ≤ sizes l := by
        rw [hl]
        simp [sizes]
      by_cases h : held + need > s.maxSize
      · rw [shed, if_pos h, List.mem_cons, or_iff_right hne]
        exact ih pre post _ hl (fun h => hpre (List.mem_cons_of_mem _ h)) hsub (by omega)
      · have := mt hover.2 h
        rw [shed, if_neg h]
        simp only [List.not_mem_nil, false_iff]
        omega

/-- An entry that grows is still there once `remove_cache` has made room for it, if it fits. -/
theorem not_mem_dropped_iff (hs : WellFormed s) (hn : n ∈ s.nodes.nodes) {size : UInt64}
    (hlt : n.val.size < size)
    (hsum : s.cacheSize.toNat + (size.toNat - n.val.size.toNat) < 2 ^ 64) :
    n ∉ P.dropped s (size - n.val.size)
      ↔ sizes (P.behind s n.addr) + size.toNat ≤ s.maxSize.toNat := by
  have hlt' := UInt64.lt_iff_toNat_lt.1 hlt
  have hsub := UInt64.toNat_sub_of_le _ _ (UInt64.le_of_lt hlt)
  rw [mem_dropped hs hn (by omega)]
  omega

end MemoryPolicy

end XCache
