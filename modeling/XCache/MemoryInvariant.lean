import XCache.MemoryCache

/-!
# What an in-memory cache keeps

`WellFormed` is the representation: `cache_map` and the container are in bijection, and `cache_size`
is the sum of the sizes. The nodes `remove_cache` erases for a given need are a prefix (`dropped`)
of all the nodes in the order of eviction; a node is among them exactly if it does not fit together
with the nodes behind it (`behind`).
-/

namespace XCache

variable {τ ε α β : Type}

/-- The sum of the sizes. -/
def sizes (l : List (Node (Cache τ))) : ℕ := (l.map fun n => n.val.size.toNat).sum

/-- `if(removed.size())remove_callback(removed);` -/
def Memory.deliver (s : Memory τ ε) (removed : List (Cache τ)) : Memory τ ε :=
  if removed = [] then s else { s with delivered := s.delivered ++ [removed] }

/-- `cache_map` leads each key to the live node of that key, and no two nodes have one key. -/
structure WellFormed (s : Memory τ ε) : Prop where
  mapped : ∀ key it, s.map.lookup key = some it ↔ ∃ n ∈ s.nodes.nodes, n.val.key = key ∧ n.addr = it
  keys : (s.nodes.nodes.map fun n => n.val.key).Nodup
  sum : s.cacheSize.toNat = sizes s.nodes.nodes

namespace MemoryPolicy

variable (P : MemoryPolicy τ ε)

/-- The nodes dropped from the front of a list until what `held` counts leaves room for `need`. -/
def shed (limit need : UInt64) : UInt64 → List (Node (Cache τ)) → List (Node (Cache τ))
  | _, [] => []
  | held, n :: ns =>
    if held + need > limit then n :: shed limit need (held - n.val.size) ns else []

/-- The nodes `remove_cache` erases to make room for `need`. -/
def dropped (s : Memory τ ε) (need : UInt64) : List (Node (Cache τ)) :=
  shed s.maxSize need s.cacheSize (P.order s.nodes.nodes)

/-- The nodes of `D` evicted, not yet delivered. -/
def evict (s : Memory τ ε) (D : List (Node (Cache τ))) : Memory τ ε := D.foldl P.evictOne s

/-- What `remove_cache` leaves. -/
def shrink (s : Memory τ ε) (need : UInt64) : Memory τ ε :=
  (P.evict s (P.dropped s need)).deliver ((P.dropped s need).map Node.val)

/-- The nodes that are evicted after the node `it`. -/
def behind (s : Memory τ ε) (it : ℕ) : List (Node (Cache τ)) :=
  ((P.order s.nodes.nodes).dropWhile fun n => n.addr ≠ it).tail

/-- An entry of this key that grows to `size` fits together with the entries that are evicted after
it. -/
def GrowthFits (s : Memory τ ε) (key : Bytes) (size : UInt64) : Prop :=
  ∀ n ∈ s.nodes.nodes, n.val.key = key → n.val.size < size →
    sizes (P.behind s n.addr) + size.toNat ≤ s.maxSize.toNat

instance (s : Memory τ ε) (key : Bytes) (size : UInt64) : Decidable (P.GrowthFits s key size) :=
  inferInstanceAs (Decidable (∀ n ∈ s.nodes.nodes, _))

end MemoryPolicy

/-- The call returns or throws: its behaviour is defined. -/
def Defined {ρ : Type} (o : Except MemoryError ρ) : Prop :=
  (∃ v, o = .ok v) ∨ ∃ e, o = .error (.algo e)

/-- A program that keeps `I` and whose behaviour is defined if `p` holds, and that dereferences an
erased node otherwise. -/
structure Fares {ρ : Type} (I : Memory τ ε → Prop) (p : Prop) (x : MemoryCall τ ε ρ)
    (s : Memory τ ε) : Prop where
  keeps : p → I (outcome x s).2
  defined : p → Defined (outcome x s).1
  dangles : ¬ p → (outcome x s).1 = .error .dangling

/-- The sum a growth to `size` computes does not reach `2 ^ 64`. -/
def Memory.GrowthBounded (s : Memory τ ε) (key : Bytes) (size : UInt64) : Prop :=
  ∀ n ∈ s.nodes.nodes, n.val.key = key →
    s.cacheSize.toNat + (size.toNat - n.val.size.toNat) < 2 ^ 64

/-- No sum of sizes a `put` computes reaches `2 ^ 64`. -/
def Memory.NoWrap (s : Memory τ ε) (key : Bytes) (size : UInt64) : Prop :=
  (s.map.lookup key = none → s.cacheSize.toNat + size.toNat < 2 ^ 64) ∧ s.GrowthBounded key size

instance (s : Memory τ ε) (key : Bytes) (size : UInt64) : Decidable (s.GrowthBounded key size) :=
  inferInstanceAs (Decidable (∀ n ∈ s.nodes.nodes, _))

instance (s : Memory τ ε) (key : Bytes) (size : UInt64) : Decidable (s.NoWrap key size) :=
  inferInstanceAs (Decidable (_ ∧ _))

/-- Entries `init` may be given: of new and distinct keys, of some size, and not too many. -/
structure Memory.Loadable (s : Memory τ ε) (caches : List (Cache τ)) : Prop where
  nodup : (caches.map Cache.key).Nodup
  absent : ∀ c ∈ caches, s.map.lookup c.key = none
  pos : ∀ c ∈ caches, c.size ≠ 0
  sum : s.cacheSize.toNat + (caches.map fun c => c.size.toNat).sum < 2 ^ 64

instance (s : Memory τ ε) (caches : List (Cache τ)) : Decidable (s.Loadable caches) :=
  decidable_of_iff ((caches.map Cache.key).Nodup ∧ (∀ c ∈ caches, s.map.lookup c.key = none)
      ∧ (∀ c ∈ caches, c.size ≠ 0)
      ∧ s.cacheSize.toNat + (caches.map fun c => c.size.toNat).sum < 2 ^ 64)
    ⟨fun h => ⟨h.1, h.2.1, h.2.2.1, h.2.2.2⟩, fun h => ⟨h.nodup, h.absent, h.pos, h.sum⟩⟩

end XCache
