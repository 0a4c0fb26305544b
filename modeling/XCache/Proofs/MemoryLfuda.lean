import XCache.MemoryLfuda
import XCache.Proofs.MemoryCache

/-!
# The in-memory LFUDA's representation

Entries of different keys are never equal under `operator<`, so `cache_bst` takes in every entry it
is given and stays sorted. As in the LRU, `update_size` keeps an iterator across `remove_cache`: the
entry is still there exactly if, with its new size, it fits together with the entries after it in
`cache_bst`.
-/

namespace XCache

namespace MemoryLfuda

/-- What a call of a run is asked: entries `init` may be given in an empty object, and sums that do
not wrap. -/
def Admits (s : State) : Op → Prop
  | .init cs _ => s.nodes.nodes.length = 0 ∧ s.Loadable cs
  | .call (.put c) => s.NoWrap c.key c.size
  | .call (.renew _ _) => True
  | .call (.update k n) => s.GrowthBounded k n
  | .call (.resize _) => True
  | .call (.query _) => True
  | .call .backup => True

instance (s : State) : (op : Op) → Decidable (Admits s op)
  | .init _ _ => inferInstanceAs (Decidable (_ ∧ _))
  | .call (.put c) => inferInstanceAs (Decidable (s.NoWrap c.key c.size))
  | .call (.renew _ _) => inferInstanceAs (Decidable True)
  | .call (.update k n) => inferInstanceAs (Decidable (s.GrowthBounded k n))
  | .call (.resize _) => inferInstanceAs (Decidable True)
  | .call (.query _) => inferInstanceAs (Decidable True)
  | .call .backup => inferInstanceAs (Decidable True)

/-- The entry that a `put` or `update` makes grow fits together with those after it. -/
def Fits (s : State) : Op → Prop
  | .call (.put c) => c.key ≠ [] → policy.GrowthFits s c.key c.size
  | .call (.update k n) => policy.GrowthFits s k n
  | _ => True

/-- What `operator<` compares. -/
def rank (c : Cache) : ℕ ×ₗ ℕ ×ₗ ℕ ×ₗ List ℕ :=
  toLex (c.fields.eff.toNat, toLex (c.fields.timestamp.toNat, toLex (c.size.toNat,
    c.key.map UInt8.toNat)))

theorem key_lt : ∀ (k k' : Bytes), k < k' ↔ k.map UInt8.toNat < k'.map UInt8.toNat
  | [], [] => by simp
  | [], b :: k' => by simp
  | a :: k, [] => by simp
  | a :: k, b :: k' => by
    simp only [List.map_cons, List.cons_lt_cons_iff, UInt8.lt_iff_toNat_lt, UInt8.toNat_inj,
      key_lt k k']

theorem lt_iff (a b : Cache) : lt a b = true ↔ rank a < rank b := by
  simp only [lt, rank, Prod.Lex.toLex_lt_toLex, UInt64.toNat_inj, ← UInt64.lt_iff_toNat_lt,
    ← key_lt]
  split_ifs <;> simp_all

theorem key_eq_of_rank {a b : Cache} (h : rank a = rank b) : a.key = b.key := by
  have hkey : a.key.map UInt8.toNat = b.key.map UInt8.toNat := by
    simp [rank] at h
    exact h.2.2.2
  exact List.map_injective_iff.2 (fun _ _ => UInt8.toNat_inj.1) hkey

/-- `cache_map`, `cache_bst` and `cache_size` are consistent, the set is sorted, and it has turned
no entry away. -/
structure Rep (s : State) : Prop where
  wellFormed : WellFormed s
  sorted : s.nodes.Sorted lt
  rejected : s.extra.rejected = 0

variable {s t : State} {n : Node Cache} {size : UInt64}

theorem size_eq_zero (s : State) (hs : WellFormed s) :
    policy.size s = 0 ↔ s.nodes.nodes = [] := by
  show s.map.entries.length = 0 ↔ _
  rw [List.length_eq_zero_iff]
  refine ⟨fun h => ?_, fun h => ?_⟩
  · rcases hn : s.nodes.nodes with _ | ⟨n, l⟩
    · rfl
    · have hl := hs.lookup_mem (n := n) (by simp [hn])
      rw [AList.lookup, h] at hl
      simp at hl
  · rcases he : s.map.entries with _ | ⟨e, l⟩
    · rfl
    · have hl : s.map.lookup e.1 = some e.2 := by
        rw [AList.lookup, he]
        exact List.dlookup_cons_eq _ _ _
      obtain ⟨n, hn, -, -⟩ := (hs.mapped _ _).1 hl
      simp [h] at hn

/-! ## What keeps the representation -/

theorem rank_ne (hs : WellFormed s) {c : Cache} (hl : s.map.lookup c.key = none) :
    ∀ n ∈ s.nodes.nodes, rank n.val ≠ rank c :=
  fun n hn h => hs.lookup_eq_none.1 hl n hn (key_eq_of_rank h)

theorem emplace_eq (hs : WellFormed s) (hsorted : s.nodes.Sorted lt) {c : Cache}
    (hl : s.map.lookup c.key = none) :
    emplace s c = { s with
      nodes := s.nodes.insert (.ordered lt) c, map := s.map.insert c.key s.nodes.next } := by
  obtain ⟨hin, -⟩ := Nodes.sorted_emplace lt_iff hsorted (rank_ne hs hl)
  rw [emplace, hin]
  rfl

/-- An entry that `init` brings in. -/
def loaded (s : State) (c : Cache) : State :=
  { emplace s c with cacheSize := s.cacheSize + c.size }

/-- An entry under a new key is taken in. -/
theorem loaded_keeps (hs : WellFormed s) (hsorted : s.nodes.Sorted lt) {c : Cache}
    (hl : s.map.lookup c.key = none) (hsum : s.cacheSize.toNat + c.size.toNat < 2 ^ 64) :
    WellFormed (loaded s c) ∧ (loaded s c).nodes.Sorted lt
      ∧ (loaded s c).nodes.vals.Perm (c :: s.nodes.vals)
      ∧ (loaded s c).extra.rejected = s.extra.rejected := by
  obtain ⟨-, hsorted'⟩ := Nodes.sorted_emplace lt_iff hsorted (rank_ne hs hl)
  rw [loaded, emplace_eq hs hsorted hl]
  refine ⟨hs.insert (n := ⟨s.nodes.next, c⟩) Nodes.perm_insert hl rfl ?_, hsorted',
    Nodes.perm_insert.map Node.val, rfl⟩
  show (s.cacheSize + c.size).toNat = _
  rw [UInt64.toNat_add, Nat.mod_eq_of_lt hsum]

/-- An entry that `put` brings in. -/
theorem rep_emplace (hs : Rep s) {c : Cache} (hl : s.map.lookup c.key = none)
    (hsum : s.cacheSize.toNat + c.size.toNat < 2 ^ 64) :
    Rep { emplace s c with cacheSize := s.cacheSize + c.size } := by
  obtain ⟨hw, hsorted, -, hrejected⟩ := loaded_keeps hs.wellFormed hs.sorted hl hsum
  exact ⟨hw, hsorted, hrejected.trans hs.rejected⟩

/-- The object after the node `n` has been extracted, changed to `c` and inserted. -/
def reinserted (s : State) (n : Node Cache) (c : Cache) (cacheSize : UInt64) : State :=
  insertNode { s with cacheSize := cacheSize, nodes := s.nodes.erase n.addr } n.val.key n.addr c

theorem reinserted_eq (hs : Rep s) (hn : n ∈ s.nodes.nodes) {c : Cache} (hk : c.key = n.val.key)
    (x : UInt64) :
    reinserted s n c x = { s with
      nodes := (s.nodes.erase n.addr).relink (.ordered lt) n.addr c
      map := s.map.insert n.val.key n.addr
      cacheSize := x }
    ∧ ((s.nodes.erase n.addr).relink (.ordered lt) n.addr c).Sorted lt := by
  have hne : ∀ m ∈ (s.nodes.erase n.addr).nodes, rank m.val ≠ rank c := by
    intro m hm h
    obtain ⟨hms, ha⟩ := Nodes.mem_erase.1 hm
    exact ha (by rw [hs.wellFormed.eq_of_key hms hn ((key_eq_of_rank h).trans hk)])
  obtain ⟨hin, hsorted⟩ := Nodes.sorted_insertNode lt_iff
    (Nodes.sorted_erase hs.sorted n.addr) (s.nodes.lt_next n hn) hne
  refine ⟨?_, hsorted⟩
  rw [reinserted, insertNode, hin]
  rfl

theorem rep_reinserted (hs : Rep s) (hn : n ∈ s.nodes.nodes) {c : Cache} (hk : c.key = n.val.key)
    {x : UInt64} (hsum : x.toNat + n.val.size.toNat = s.cacheSize.toNat + c.size.toNat) :
    Rep (reinserted s n c x) := by
  obtain ⟨heq, hsorted⟩ := reinserted_eq hs hn hk x
  have hperm := Nodes.perm_relink (s := s.nodes.erase n.addr) (p := .ordered lt) (a := c)
    (s.nodes.lt_next n hn)
  rw [Nodes.erase_erase] at hperm
  rw [heq]
  refine ⟨hs.wellFormed.replace hn hk hperm (fun key => ?_) hsum, hsorted, hs.rejected⟩
  show (s.map.insert n.val.key n.addr).lookup key = _
  by_cases hkey : key = n.val.key
  · rw [hkey, AList.lookup_insert, hs.wellFormed.lookup_mem hn]
  · exact AList.lookup_insert_ne hkey

theorem rep_shrink (hs : Rep s) (need : UInt64) : Rep (policy.shrink s need) := by
  have hleft := MemoryPolicy.shrink_left (P := policy) hs.wellFormed need
  have hevict : ∀ (D : List (Node Cache)) (s : State),
      (policy.evict s D).extra.rejected = s.extra.rejected := by
    intro D
    induction D with
    | nil => exact fun _ => rfl
    | cons n D ih => exact fun s => ih (policy.evictOne s n)
  refine ⟨hleft.wellFormed, hs.sorted.sublist hleft.sublist, ?_⟩
  have hrej : (policy.shrink s need).extra.rejected = s.extra.rejected := by
    unfold MemoryPolicy.shrink Memory.deliver
    split_ifs
    · exact hevict _ s
    · exact hevict _ s
  exact hrej.trans hs.rejected

/-- `init` takes in all the entries. -/
theorem init_loads {caches : List Cache} (hs : WellFormed s) (hsorted : s.nodes.Sorted lt)
    (hkeys : (caches.map Cache.key).Nodup) (habsent : ∀ c ∈ caches, s.map.lookup c.key = none)
    (hsum : s.cacheSize.toNat + (caches.map fun c => c.size.toNat).sum < 2 ^ 64) :
    WellFormed (caches.reverse.foldl loaded s) ∧ (caches.reverse.foldl loaded s).nodes.Sorted lt
      ∧ (caches.reverse.foldl loaded s).nodes.vals.Perm (caches ++ s.nodes.vals)
      ∧ (caches.reverse.foldl loaded s).extra.rejected = s.extra.rejected := by
  refine load_keeps
    (I := fun l t => WellFormed t ∧ t.nodes.Sorted lt ∧ t.nodes.vals.Perm (l ++ s.nodes.vals)
      ∧ t.extra.rejected = s.extra.rejected)
    (fun l t c ht hl hsum => ?_) ⟨hs, hsorted, List.Perm.refl _, rfl⟩ hkeys habsent hsum
  obtain ⟨hw, hsort, hperm, hrej⟩ := ht
  obtain ⟨hw', hsort', hperm', hrej'⟩ := loaded_keeps hw hsort hl hsum
  refine ⟨⟨hw', hsort', hperm'.trans (hperm.cons c), hrej'.trans hrej⟩, fun key hk => ?_, ?_⟩
  · rw [loaded, emplace_eq hw hsort hl]
    exact AList.lookup_insert_ne hk
  · show (t.cacheSize + c.size).toNat = _
    rw [UInt64.toNat_add, Nat.mod_eq_of_lt hsum]

theorem rep_init {caches : List Cache} (age : UInt64) (hs : Rep s) (hc : s.Loadable caches) :
    ∃ t, outcome (init caches age) s = (.ok (), t) ∧ Rep t := by
  obtain ⟨hw, hsorted, -, hrejected⟩ :=
    init_loads hs.wellFormed hs.sorted hc.nodup hc.absent hc.sum
  exact ⟨_, outcome_modify _ s, ⟨hw.mapped, hw.keys, hw.sum⟩, hsorted, hrejected.trans hs.rejected⟩

/-! ## What the functions do -/

theorem extract_eq (hn : n ∈ s.nodes.nodes) :
    outcome (extract n.addr) s = (.ok n.val, { s with nodes := s.nodes.erase n.addr }) := by
  rw [extract, outcome_bind_ok (Memory.deref_eq hn rfl), outcome_bind_ok (outcome_modify _ s)]
  rfl

/-- The object in which `update_size` turns to the entry itself: a growing entry has had room
made. -/
def roomFor (s : State) (n : Node Cache) (size : UInt64) : State :=
  if size > n.val.size then policy.shrink s (size - n.val.size) else s

/-- The object after `update_size`. -/
def resized (s : State) (n : Node Cache) (size : UInt64) : State :=
  reinserted (roomFor s n size) n { n.val with size := size }
    ((roomFor s n size).cacheSize - n.val.size + size)

theorem roomFor_rep (hs : Rep s) (n : Node Cache) (size : UInt64) : Rep (roomFor s n size) := by
  unfold roomFor
  split_ifs
  · exact rep_shrink hs _
  · exact hs

/-- `update_size` of an entry that is there when its room has been made, and of one that is not. -/
theorem updateSize_eq (hs : Rep s) (hn : n ∈ s.nodes.nodes) (size : UInt64) :
    (n ∈ (roomFor s n size).nodes.nodes →
      outcome (updateSize n.val.key n.addr size) s = (.ok (), resized s n size))
      ∧ (n ∉ (roomFor s n size).nodes.nodes →
        outcome (updateSize n.val.key n.addr size) s = (.error .dangling, roomFor s n size)) := by
  have hroom : outcome (if size > n.val.size then removeCache (size - n.val.size)
      else pure () : Call Unit) s = (.ok (), roomFor s n size) := by
    unfold roomFor removeCache
    split_ifs
    · exact MemoryPolicy.removeCache_eq size_eq_zero hs.wellFormed _
    · rfl
  rw [updateSize, outcome_bind_ok (Memory.deref_eq hn rfl), outcome_bind_ok hroom]
  refine ⟨fun h => ?_, fun h => ?_⟩
  · rw [outcome_bind_ok (Memory.deref_eq h rfl), outcome_bind_ok (outcome_modify _ _),
      outcome_bind_ok (extract_eq (s := { roomFor s n size with
        cacheSize := (roomFor s n size).cacheSize - n.val.size + size }) h), outcome_modify]
    rfl
  · refine outcome_bind_error (Memory.deref_erased fun m hm ha => ?_) _
    have hsub : (roomFor s n size).nodes.nodes.Sublist s.nodes.nodes := by
      unfold roomFor
      split_ifs
      · exact (MemoryPolicy.shrink_left hs.wellFormed _).sublist
      · exact List.Sublist.refl _
    obtain rfl := Nodes.eq_of_addr (hsub.subset hm) hn ha
    exact h hm

/-- The entry is there exactly if it fits. -/
theorem mem_roomFor (hs : Rep s) (hn : n ∈ s.nodes.nodes)
    (hsum : s.cacheSize.toNat + (size.toNat - n.val.size.toNat) < 2 ^ 64) :
    n ∈ (roomFor s n size).nodes.nodes ↔ (n.val.size < size →
      sizes (policy.behind s n.addr) + size.toNat ≤ s.maxSize.toNat) := by
  unfold roomFor
  by_cases hlt : n.val.size < size
  · rw [if_pos hlt, (MemoryPolicy.shrink_left hs.wellFormed _).mem, and_iff_right hn,
      MemoryPolicy.not_mem_dropped_iff hs.wellFormed hn hlt hsum]
    simp [hlt]
  · simp [hlt, hn]

theorem rep_resized (hs : Rep s) (hn : n ∈ (roomFor s n size).nodes.nodes)
    (hsum : s.cacheSize.toNat + (size.toNat - n.val.size.toNat) < 2 ^ 64) :
    Rep (resized s n size) := by
  have hrep := roomFor_rep hs n size
  have hle := hrep.wellFormed.size_le hn
  have hbound : (roomFor s n size).cacheSize.toNat ≤ s.cacheSize.toNat := by
    unfold roomFor
    split_ifs
    · exact (MemoryPolicy.shrink_left hs.wellFormed _).cacheSize_le
    · exact le_rfl
  refine rep_reinserted hrep hn (c := { n.val with size := size }) rfl ?_
  rw [UInt64.toNat_add, UInt64.toNat_sub_of_le _ _ (UInt64.le_iff_toNat_le.2 hle),
    Nat.mod_eq_of_lt (by omega)]
  show _ = (roomFor s n size).cacheSize.toNat + size.toNat
  omega

section Put

variable {c : Cache}

theorem put_keyNull (h : c.key = []) :
    outcome (put c) s = (.error (.algo .cacheKeyNull), s) :=
  outcome_bind_throws h _ _ s

theorem put_zero (hk : c.key ≠ []) (h : c.size = 0) : outcome (put c) s = (.ok false, s) := by
  rw [put, outcome_bind_throwIf hk, if_pos h]
  rfl

/-- The entry `put` brings in. -/
def stamped (s : State) (c : Cache) : Cache :=
  { c with fields := { c.fields with freq := 1, eff := s.extra.aging + 1 } }

theorem put_absent (hs : Rep s) (hk : c.key ≠ []) (hz : c.size ≠ 0)
    (hl : s.map.lookup c.key = none) (t : State) (ht : t = policy.shrink s c.size) :
    outcome (put c) s
      = (.ok true, emplace { t with cacheSize := t.cacheSize + c.size } (stamped t c)) := by
  subst ht
  rw [put, outcome_bind_throwIf hk, if_neg hz, outcome_bind_ok (outcome_get s), hl]
  exact outcome_bind_ok (MemoryPolicy.removeCache_eq size_eq_zero hs.wellFormed c.size) _

theorem put_resident (hs : Rep s) (hk : c.key ≠ []) (hz : c.size ≠ 0)
    (hn : n ∈ s.nodes.nodes) (hkey : n.val.key = c.key) :
    outcome (put c) s =
      if c.size > n.val.size then
        outcome (do
          updateSize n.val.key n.addr c.size
          return false) s
      else (.ok false, s) := by
  have hl : s.map.lookup c.key = some n.addr := hkey ▸ hs.wellFormed.lookup_mem hn
  rw [put, outcome_bind_throwIf hk, if_neg hz, outcome_bind_ok (outcome_get s), hl]
  simp only []
  rw [outcome_bind_ok (Memory.deref_eq hn rfl), hkey]
  split_ifs <;> rfl

end Put

/-- The entry after a renewal. -/
def renewed (s : State) (c : Cache) (timestamp : UInt64) : Cache :=
  { c with fields :=
    { timestamp := timestamp
      freq := c.fields.freq + 1
      eff := c.fields.freq + 1 + s.extra.aging } }

theorem renew_absent {key : Bytes} {ts : UInt64} (hl : s.map.lookup key = none) :
    outcome (renew key ts) s = (.ok false, s) := by
  rw [renew, outcome_bind_ok (outcome_get s), hl]
  rfl

theorem renew_resident {key : Bytes} (hs : Rep s) (hn : n ∈ s.nodes.nodes)
    (hkey : n.val.key = key) (ts : UInt64) :
    outcome (renew key ts) s = (.ok true, reinserted s n (renewed s n.val ts) s.cacheSize) := by
  have hl : s.map.lookup key = some n.addr := hkey ▸ hs.wellFormed.lookup_mem hn
  subst hkey
  rw [renew, outcome_bind_ok (outcome_get s), hl]
  exact outcome_bind_ok (extract_eq hn) _

theorem update_absent {key : Bytes} (hl : s.map.lookup key = none) :
    outcome (update key size) s = (.ok false, s) := by
  rw [update, outcome_bind_ok (outcome_get s), hl]
  rfl

theorem update_resident {key : Bytes} (size : UInt64) (hs : Rep s) (hn : n ∈ s.nodes.nodes)
    (hkey : n.val.key = key) :
    outcome (update key size) s =
      if size ≠ n.val.size then
        outcome (do
          updateSize n.val.key n.addr size
          return true) s
      else (.ok true, s) := by
  have hl : s.map.lookup key = some n.addr := hkey ▸ hs.wellFormed.lookup_mem hn
  subst hkey
  rw [update, outcome_bind_ok (outcome_get s), hl]
  simp only []
  rw [outcome_bind_ok (Memory.deref_eq hn rfl)]
  split_ifs <;> rfl

/-! ## Runs -/

/-- `update_size` of the entry of a key, whatever its caller then returns. -/
theorem updateSize_fares {key : Bytes} (b : Bool) (hs : Rep s) (hn : n ∈ s.nodes.nodes)
    (hkey : n.val.key = key) (hbound : s.GrowthBounded key size) :
    Fares Rep (policy.GrowthFits s key size)
      (do updateSize n.val.key n.addr size; return b) s := by
  have hsum := hbound n hn hkey
  have honly : policy.GrowthFits s key size ↔ n ∈ (roomFor s n size).nodes.nodes := by
    rw [mem_roomFor hs hn hsum]
    refine ⟨fun h => h n hn hkey, fun h m hm hkm => ?_⟩
    obtain rfl := hs.wellFormed.eq_of_key hm hn (hkm.trans hkey.symm)
    exact h
  obtain ⟨hfits, hdangles⟩ := updateSize_eq hs hn size
  by_cases hroom : n ∈ (roomFor s n size).nodes.nodes
  · exact .returns (outcome_bind_ok (hfits hroom) _) (rep_resized hs hroom hsum) (honly.2 hroom)
  · refine ⟨fun h => absurd (honly.1 h) hroom, fun h => absurd (honly.1 h) hroom, fun _ => ?_⟩
    rw [outcome_bind_error (hdangles hroom)]

theorem put_fares {c : Cache} (hs : Rep s) (ha : s.NoWrap c.key c.size) :
    Fares Rep (c.key ≠ [] → policy.GrowthFits s c.key c.size) (put c) s := by
  by_cases hk : c.key = []
  · exact .of_outcome (put_keyNull hk) (.inr ⟨_, rfl⟩) hs fun h => absurd hk h
  by_cases hz : c.size = 0
  · refine .returns (put_zero hk hz) hs fun _ n _ _ hlt => ?_
    rw [hz, UInt64.lt_iff_toNat_lt] at hlt
    simp at hlt
  rw [imp_iff_right hk]
  rcases hl : s.map.lookup c.key with _ | it
  · have hleft := MemoryPolicy.shrink_left (P := policy) hs.wellFormed c.size
    have hnone := hs.wellFormed.lookup_eq_none.1 hl
    have hsum := ha.1 hl
    have hle := hleft.cacheSize_le
    refine .returns (put_absent hs hk hz hl _ rfl) ?_
      (MemoryPolicy.growthFits_of_absent hs.wellFormed hl)
    refine rep_emplace (c := stamped (policy.shrink s c.size) c) (rep_shrink hs _) ?_ ?_
    · exact hleft.wellFormed.lookup_eq_none.2 fun n hn => hnone n (hleft.mem.1 hn).1
    · show _ + c.size.toNat < _
      omega
  · obtain ⟨n, hn, hkn, -, -⟩ := hs.wellFormed.find_lookup hl
    have hput := put_resident hs hk hz hn hkn
    by_cases hlt : n.val.size < c.size
    · rw [if_pos hlt] at hput
      have h := updateSize_fares false hs hn hkn ha.2
      exact ⟨fun hp => hput ▸ h.keeps hp, fun hp => hput ▸ h.defined hp,
        fun hp => hput ▸ h.dangles hp⟩
    · rw [if_neg hlt] at hput
      exact .returns hput hs (MemoryPolicy.growthFits_of_le hs.wellFormed hn hkn hlt)

theorem update_fares {key : Bytes} (hs : Rep s) (ha : s.GrowthBounded key size) :
    Fares Rep (policy.GrowthFits s key size) (update key size) s := by
  rcases hl : s.map.lookup key with _ | it
  · exact .returns (update_absent hl) hs (MemoryPolicy.growthFits_of_absent hs.wellFormed hl)
  · obtain ⟨n, hn, hkn, -, -⟩ := hs.wellFormed.find_lookup hl
    have hupdate := update_resident size hs hn hkn
    by_cases hne : size = n.val.size
    · rw [if_neg (by simp [hne])] at hupdate
      refine .returns hupdate hs (MemoryPolicy.growthFits_of_le hs.wellFormed hn hkn ?_)
      rw [hne]
      exact UInt64.lt_irrefl _
    · rw [if_pos hne] at hupdate
      have h := updateSize_fares true hs hn hkn ha
      exact ⟨fun hp => hupdate ▸ h.keeps hp, fun hp => hupdate ▸ h.defined hp,
        fun hp => hupdate ▸ h.dangles hp⟩

/-- One call: it keeps the representation and its behaviour is defined if it fits, and otherwise it
dereferences an erased node. -/
theorem call_fares {op : Op} (hs : Rep s) (ha : Admits s op) :
    Fares Rep (Fits s op) (call op) s := by
  rcases op with ⟨cs, age⟩ | op
  · obtain ⟨t, ht, hrep⟩ := rep_init age hs ha.2
    exact (Fares.returns ht hrep trivial).map _
  cases op with
  | put c => exact (put_fares hs ha).map _
  | renew k ts =>
    refine Fares.map ?_ _
    rcases hl : s.map.lookup k with _ | it
    · exact .returns (renew_absent hl) hs trivial
    · obtain ⟨n, hn, hk, -, -⟩ := hs.wellFormed.find_lookup hl
      have hrep : Rep (reinserted s n (renewed s n.val ts) s.cacheSize) :=
        rep_reinserted hs hn (c := renewed s n.val ts) rfl rfl
      exact .returns (renew_resident hs hn hk ts) hrep trivial
  | update k n => exact (update_fares hs ha).map _
  | resize n =>
    refine Fares.map ?_ _
    by_cases hn : n = 0
    · subst hn
      exact .of_outcome (policy.resize_zero s) (.inr ⟨_, rfl⟩) hs trivial
    · have hs' : Rep { s with maxSize := n } := ⟨hs.wellFormed.limit n, hs.sorted, hs.rejected⟩
      exact .returns (MemoryPolicy.resize_eq size_eq_zero hs.wellFormed hn) (rep_shrink hs' 0)
        trivial
  | query k => exact (policy.query_fares hs.wellFormed hs trivial).map _
  | backup =>
    have hs' : Rep { s with nodes := s.nodes.clear, map := ∅, cacheSize := 0 } :=
      ⟨WellFormed.cleared s, List.Pairwise.nil, hs.rejected⟩
    exact (Fares.returns rfl hs' trivial).map _

theorem rep_start (M : UInt64) : Rep (start M) :=
  ⟨WellFormed.construct M _, List.Pairwise.nil, rfl⟩

/-- A run of a new object in which the representation holds in every state reached, and every call
has defined behaviour: none dereferences or extracts an iterator whose node has been erased. -/
def Sane (M : UInt64) (ops : List Op) : Prop :=
  (∀ before after, ops = before ++ after → Rep (run step (start M) before).2)
    ∧ ∀ o ∈ (run step (start M) ops).1, Defined o

/-- A run is sane exactly if every entry that a `put` or `update` makes grow fits together with the
entries after it in `cache_bst`. -/
theorem sane_iff_later_fit (M : UInt64) (ops : List Op) (hops : RunOk step Admits (start M) ops) :
    Sane M ops ↔ RunOk step Fits (start M) ops := by
  exact run_iff (I := Rep) (O := Defined)
    (fun s op hs ha hf => ⟨(call_fares hs ha).keeps hf, (call_fares hs ha).defined hf⟩)
    (fun s op hs ha hf => (call_fares hs ha).not_defined hf) (rep_start M) hops

/-- The second file, renewed, stands last: it grows while the others are evicted. -/
theorem sane_iff_later_fit_ten :
    let ops : List Op := [.init [⟨[97], 3, 0, [], ⟨1, 1, 1⟩⟩] 0,
      .call (.put ⟨[98], 5, 0, [], ⟨2, 0, 0⟩⟩), .call (.renew [98] 3), .call (.update [98] 10)]
    Sane 10 ops ↔ RunOk step Fits (start 10) ops :=
  sane_iff_later_fit 10 _ (by decide)

/-- A file of size 5 grows to size 20, in a cache of size 10: to make room, the loop evicts the file
itself. -/
theorem update_dangles :
    ¬ ∀ (M : UInt64) (ops : List Op), M ≠ 0 → RunOk step Admits (start M) ops → Sane M ops := by
  intro h
  have hsane := h 10 [.call (.put ⟨[97], 5, 0, [], ⟨1, 0, 0⟩⟩), .call (.update [97] 20)]
    (by decide) (by decide)
  have hlast := hsane.2 (.error .dangling) (by decide)
  simp [Defined] at hlast

end MemoryLfuda

end XCache
