import XCache.Proofs.Invariant
import XCache.Proofs.MemoryCache

/-!
# An in-memory cache beside a SQLite-backed one

`Mirrors` holds of two objects that have the same entries and the same limit and have handed the
same entries to `remove_callback`. It outlasts `remove_cache` if the node that the one is to evict
next is always the row that the other picks (`Mirrors.evict`).
-/

namespace XCache

variable {κ τ τ' ε ε' : Type} [Columns κ]

/-- An entry, field by field. -/
abbrev Stored (τ : Type) := Bytes × UInt64 × UInt64 × Bytes × τ

/-- What a row keeps of an entry: SQLite gets the length of a blob as an `int`. -/
def Cache.stored (c : Cache τ) : Stored τ :=
  (c.key, c.size, c.downloadTime, bindBlob c.hash, c.fields)

/-- What has been read from a row, `f` of the policy's own fields. -/
def Cache.taken (f : τ' → τ) (c : Cache τ') : Stored τ :=
  (c.key, c.size, c.downloadTime, c.hash, f c.fields)

/-- An entry with other fields of the policy. -/
def Cache.mapFields (f : τ' → τ) (c : Cache τ') : Cache τ :=
  ⟨c.key, c.size, c.downloadTime, c.hash, f c.fields⟩

def Policy.entry (Q : Policy κ τ' ε') (f : τ' → τ) (r : Row κ) : Stored τ := (Q.getRow r).taken f

/-- The two objects hold the same. -/
structure Mirrors (Q : Policy κ τ' ε') (f : τ' → τ) (s : Memory τ ε) (w : World κ τ' ε') :
    Prop where
  wellFormed : WellFormed s
  sound : Sound w
  entries : (s.nodes.nodes.map fun n => n.val.stored).Perm (w.table.rows.map (Q.entry f))
  maxSize : s.maxSize = w.metaMem.maxSize
  delivered : s.delivered.map (·.map Cache.stored) = w.delivered.map (·.map (Cache.taken f))

variable {P : MemoryPolicy τ ε} {Q : Policy κ τ' ε'} {f : τ' → τ} {s : Memory τ ε}
  {w : World κ τ' ε'} {n : Node (Cache τ)} {r : Row κ} {need : UInt64}

theorem Table.Plain.entry_key (hw : w.table.Plain) (hr : r ∈ w.table.rows) :
    (Q.entry f r).1 = r.key :=
  hw.getRow_key (P := Q) hr

theorem Policy.shrink_subset (hr : r ∈ (Q.shrink w need).table.rows) : r ∈ w.table.rows := by
  rw [Policy.shrink_table] at hr
  exact Policy.evict_subset hr

theorem column_bind (n : UInt64) : columnUInt64 (bindUInt64 n) = n := by
  simp [columnUInt64, bindUInt64]

theorem entry_bindRow {c : Cache τ'} (hk : KeyExact c.key) :
    Q.entry f (Q.bindRow c) = (c.mapFields f).stored := by
  have hkey : (Q.getRow (Q.bindRow c)).key = c.key := by
    rw [Policy.getRow, Policy.bindRow, hk.bound]
    exact columnText_exact hk
  have hhash : (Q.getRow (Q.bindRow c)).hash = bindBlob c.hash := by
    rw [Policy.getRow, Policy.bindRow, columnBlob]
  unfold Policy.entry Cache.taken Cache.stored Cache.mapFields
  rw [Prod.mk.injEq, Prod.mk.injEq, Prod.mk.injEq, Prod.mk.injEq]
  exact ⟨hkey, column_bind _, column_bind _, hhash, congrArg f (Q.column_bindCols _)⟩

namespace Mirrors

theorem cacheSize (h : Mirrors Q f s w) : s.cacheSize = w.metaMem.cacheSize := by
  have hsum := (h.entries.map fun c => c.2.1.toNat).sum_eq
  rw [List.map_map, List.map_map] at hsum
  exact UInt64.toNat_inj.1 (h.wellFormed.sum.trans (hsum.trans h.sound.total))

theorem node_of_row (h : Mirrors Q f s w) (hr : r ∈ w.table.rows) :
    ∃ n ∈ s.nodes.nodes, n.val.stored = Q.entry f r :=
  List.mem_map.1 (h.entries.mem_iff.2 (List.mem_map_of_mem hr))

theorem row_of_node (h : Mirrors Q f s w) (hn : n ∈ s.nodes.nodes) :
    ∃ r ∈ w.table.rows, Q.entry f r = n.val.stored :=
  List.mem_map.1 (h.entries.mem_iff.1 (List.mem_map_of_mem hn))

theorem lookup_eq_none (h : Mirrors Q f s w) (key : Bytes) :
    s.map.lookup key = none ↔ key ∉ w.table.keys := by
  rw [h.wellFormed.lookup_eq_none, Table.mem_keys]
  refine ⟨fun hnone ⟨r, hr, hk⟩ => ?_, fun hnone n hn hk => ?_⟩
  · obtain ⟨n, hn, hc⟩ := h.node_of_row hr
    have hkey := congrArg Prod.fst hc
    rw [h.sound.plain.entry_key hr] at hkey
    exact hnone n hn (hkey.trans hk)
  · obtain ⟨r, hr, hc⟩ := h.row_of_node hn
    have hkey := congrArg Prod.fst hc
    rw [h.sound.plain.entry_key hr] at hkey
    exact hnone ⟨r, hr, hkey.trans hk⟩

theorem node_of_key (h : Mirrors Q f s w) (hr : r ∈ w.table.rows) :
    ∃ n ∈ s.nodes.nodes, n.val.key = r.key ∧ n.val.stored = Q.entry f r := by
  obtain ⟨n, hn, hc⟩ := h.node_of_row hr
  have hkey := congrArg Prod.fst hc
  rw [h.sound.plain.entry_key hr] at hkey
  exact ⟨n, hn, hkey, hc⟩

theorem tick (h : Mirrors Q f s w) (n : ℕ) : Mirrors Q f s (w.tick n) :=
  ⟨h.wellFormed, h.sound.tick n, h.entries, h.maxSize, h.delivered⟩

theorem limit (h : Mirrors Q f s w) {size : UInt64} (hsize : size ≠ 0) :
    Mirrors Q f { s with maxSize := size }
      { w with metaMem := { w.metaMem with maxSize := size } } :=
  ⟨h.wellFormed.limit size, h.sound.of_eq rfl rfl hsize, h.entries, rfl, h.delivered⟩

theorem query (h : Mirrors Q f s w) (hz : P.zeroFields = f Q.zeroFields) (key : Bytes) :
    ∃ c, outcome (P.query key) s = (.ok c, s)
      ∧ c.stored = (Q.getSingle (w.table.find key)).taken f := by
  rcases hf : w.table.find key with _ | r
  · have hnone := (h.lookup_eq_none key).2 (Table.find_none.1 hf)
    refine ⟨_, P.query_absent hnone, ?_⟩
    simp [hz, Cache.stored, Cache.taken, Policy.getSingle, Policy.noRow, bindBlob]
  · obtain ⟨hr, hkr⟩ := Table.find_some.1 hf
    obtain ⟨n, hn, hkey, hc⟩ := h.node_of_key hr
    exact ⟨n.val, P.query_resident h.wellFormed hn (hkey.trans hkr), hc⟩

/-! ## Evictions -/

theorem evictOne (h : Mirrors Q f s w) (hn : n ∈ s.nodes.nodes) (hr : Q.worst w.table = some r)
    (hc : n.val.stored = Q.entry f r) : Mirrors Q f (P.evictOne s n) (Q.evictOne w r) where
  wellFormed := h.wellFormed.evictOne P hn
  sound := Policy.sound_evictOne h.sound hr
  entries := by
    have hs := (Nodes.perm_erase hn).map fun n => n.val.stored
    have hw := (Table.delete_perm (Q.worst_mem hr)).map (Q.entry f)
    have hp := hs.symm.trans (h.entries.trans hw)
    rw [List.map_cons, List.map_cons, hc] at hp
    exact hp.cons_inv
  maxSize := h.maxSize
  delivered := h.delivered

/-- The two loops, while what they evict is the same: `E` is what picks the same entry. -/
theorem evict {E : Memory τ ε → World κ τ' ε' → Prop} (need : UInt64)
    (hE : ∀ s w n rest, Mirrors Q f s w → E s w → P.order s.nodes.nodes = n :: rest →
      s.cacheSize + need > s.maxSize →
      ∃ r, Q.worst w.table = some r ∧ n.val.stored = Q.entry f r
        ∧ E (P.evictOne s n) (Q.evictOne w r))
    (h : Mirrors Q f s w) (he : E s w) :
    Mirrors Q f (P.evict s (P.dropped s need)) (Q.evict w (Q.dropped w need))
      ∧ E (P.evict s (P.dropped s need)) (Q.evict w (Q.dropped w need))
      ∧ (P.dropped s need).map (fun n => n.val.stored) = (Q.dropped w need).map (Q.entry f) := by
  generalize ho : P.order s.nodes.nodes = l
  induction l generalizing s w with
  | nil =>
    have hs : s.nodes.nodes = [] := List.nil_perm.1 (ho ▸ P.order_perm _)
    have hw : w.table.rows = [] := by
      have hp := h.entries
      rw [hs] at hp
      exact List.map_eq_nil_iff.1 (List.nil_perm.1 hp)
    have hnil : Q.order w.table = [] :=
      List.perm_nil.1 ((Policy.order_perm _ w.table rfl).trans (hw ▸ List.Perm.refl _))
    rw [MemoryPolicy.dropped_nil ho, Policy.dropped, hnil]
    exact ⟨h, he, rfl⟩
  | cons n rest ih =>
    have hn : n ∈ s.nodes.nodes := MemoryPolicy.mem_order.1 (ho ▸ List.mem_cons_self)
    by_cases hover : s.cacheSize + need > s.maxSize
    · obtain ⟨r, hr, hc, he'⟩ := hE s w n rest h he ho hover
      obtain ⟨h1, h2, h3⟩ := ih (h.evictOne hn hr hc) he' (MemoryPolicy.order_erase ho)
      rw [MemoryPolicy.dropped_cons ho hover, Policy.dropped_over (by
        rw [← h.cacheSize, ← h.maxSize]
        exact hover) hr]
      refine ⟨h1, h2, ?_⟩
      rw [List.map_cons, List.map_cons, hc, h3]
    · rw [MemoryPolicy.dropped_fits hover, Policy.dropped_fits (by
        rw [← h.cacheSize, ← h.maxSize]
        exact hover)]
      exact ⟨h, he, rfl⟩

/-- The same entries handed to `remove_callback`. -/
theorem deliver {D : List (Node (Cache τ))} {D' : List (Row κ)} (h : Mirrors Q f s w)
    (hD : D.map (fun n => n.val.stored) = D'.map (Q.entry f)) :
    Mirrors Q f (s.deliver (D.map Node.val)) (w.deliver (D'.map Q.getRow)) := by
  unfold Memory.deliver World.deliver
  by_cases hnil : D' = []
  · subst hnil
    have hnil : D = [] := List.map_eq_nil_iff.1 hD
    subst hnil
    exact h
  · have hne : D ≠ [] := by
      rintro rfl
      exact hnil (List.map_eq_nil_iff.1 hD.symm)
    rw [if_neg (by simpa using hne), if_neg (by simpa using hnil)]
    refine ⟨⟨h.wellFormed.mapped, h.wellFormed.keys, h.wellFormed.sum⟩,
      ⟨h.sound.plain, h.sound.total, h.sound.limit⟩, h.entries, h.maxSize, ?_⟩
    show (s.delivered ++ [D.map Node.val]).map _ = (w.delivered ++ [D'.map Q.getRow]).map _
    have hlast : (D.map Node.val).map Cache.stored = (D'.map Q.getRow).map (Cache.taken f) := by
      rw [List.map_map, List.map_map]
      exact hD
    rw [List.map_append, List.map_append, h.delivered, List.map_singleton, List.map_singleton,
      hlast]

end Mirrors

end XCache
