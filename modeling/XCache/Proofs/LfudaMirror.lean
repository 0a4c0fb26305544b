import XCache.Proofs.LfudaAging
import XCache.Proofs.Mirror
import XCache.Proofs.MemoryLfuda

/-!
# Where the two LFUDAs agree

The in-memory class evicts by `eff`, `timestamp`, `size` and `key`, the SQLite-backed one by `eff`,
`freq`, `timestamp` and `size`. They pick the same victim as long as no entry of the victim's `eff`
has a smaller `freq` than the victim (`byKey_pick`), and then they stay in step; ties that the SQL
order leaves are broken by key. Of two entries with one `eff` the one accessed later, when the
aging was higher, has the smaller `freq`, and there the two orders differ.
-/

namespace XCache

namespace LfudaMirror

/-! ## Ties broken by key -/

def rankKeyLt (a b : Lfuda.Row) : Bool :=
  Lfuda.rankLt a b || !Lfuda.rankLt b a && a.key < b.key

def rankKey (r : Lfuda.Row) : (ℤ ×ₗ ℤ ×ₗ ℤ ×ₗ ℤ) ×ₗ List ℕ :=
  toLex (Lfuda.rank r, r.key.map UInt8.toNat)

theorem rankKeyLt_iff (a b : Lfuda.Row) : rankKeyLt a b = true ↔ rankKey a < rankKey b := by
  simp only [rankKeyLt, rankKey, Prod.Lex.toLex_lt_toLex, Bool.or_eq_true, Bool.and_eq_true,
    Bool.not_eq_true', decide_eq_true_eq, ← Bool.not_eq_true, Lfuda.rankLt_iff, not_lt,
    MemoryLfuda.key_lt]
  refine or_congr_right' fun hlt => and_congr_left fun _ => ?_
  exact ⟨fun hle => le_antisymm hle (not_lt.1 hlt), fun heq => heq.le⟩

/-- Of the tied rows the one with the smallest key. -/
def byKey : Lfuda.Resolver where
  pick t := least rankKeyLt t.rows
  pick_none := least_none rankKeyLt_iff
  pick_mem := least_mem
  pick_le := by
    intro t r h r' hr'
    rcases Prod.Lex.toLex_le_toLex.1 (least_le rankKeyLt_iff h r' hr') with hlt | heq
    · exact hlt.le
    · exact heq.1.le

/-! ## The calls and the states that are compared -/

/-- A row in the set. -/
abbrev entry (r : Lfuda.Row) : Stored Tfe := (Lfuda.policy byKey).entry id r

/-- The calls the two are compared on: `put` of a key that is not resident and a size that can fit,
`renew` of a key, and `resize`. -/
def Common (w : Lfuda.World) : Lfuda.Op → Prop
  | .put c => c.key ∉ w.table.keys ∧ c.size ≠ 0 ∧ c.size ≤ w.metaMem.maxSize
      ∧ c.size.toNat < 2 ^ 63 ∧ c.fields.timestamp.toNat < 2 ^ 63
  | .renew k ts => k ≠ [] ∧ ts.toNat < 2 ^ 63
  | .update _ _ => False
  | .resize n => n ≠ 0
  | .query _ => False
  | .backup => False

instance (w : Lfuda.World) : (op : Lfuda.Op) → Decidable (Common w op)
  | .put c => inferInstanceAs (Decidable (c.key ∉ w.table.keys ∧ _ ∧ _ ∧ _ ∧ _))
  | .renew k ts => inferInstanceAs (Decidable (k ≠ [] ∧ ts.toNat < 2 ^ 63))
  | .update _ _ => inferInstanceAs (Decidable False)
  | .resize n => inferInstanceAs (Decidable (n ≠ 0))
  | .query _ => inferInstanceAs (Decidable False)
  | .backup => inferInstanceAs (Decidable False)

/-- What a call of a run of both is asked. -/
def Admits (w : Lfuda.World) (i : Lfuda.Resolver × Lfuda.Op) : Prop :=
  Lfuda.Admits w i ∧ Common w i.2

instance (w : Lfuda.World) (i : Lfuda.Resolver × Lfuda.Op) : Decidable (Admits w i) :=
  inferInstanceAs (Decidable (_ ∧ _))

/-- A renewal is not at a time before the one its entry has. -/
def Forward (w : Lfuda.World) : Lfuda.Op → Prop
  | .renew k ts => ∀ r ∈ w.table.rows, r.key = k → columnUInt64 r.cols.timestamp ≤ ts
  | _ => True

instance (w : Lfuda.World) : (op : Lfuda.Op) → Decidable (Forward w op)
  | .put _ => inferInstanceAs (Decidable True)
  | .renew k ts => inferInstanceAs
      (Decidable (∀ r ∈ w.table.rows, r.key = k → columnUInt64 r.cols.timestamp ≤ ts))
  | .update _ _ => inferInstanceAs (Decidable True)
  | .resize _ => inferInstanceAs (Decidable True)
  | .query _ => inferInstanceAs (Decidable True)
  | .backup => inferInstanceAs (Decidable True)

/-- Of the entries left when `remove_cache` evicts one, none of the same `eff` has a smaller
`freq`. -/
def FreqLeast (s : MemoryLfuda.State) (need : UInt64) : Prop :=
  ∀ v ∈ MemoryLfuda.policy.dropped s need, ∀ n ∈ MemoryLfuda.policy.behind s v.addr,
    n.val.fields.eff = v.val.fields.eff → v.val.fields.freq ≤ n.val.fields.freq

instance (s : MemoryLfuda.State) (need : UInt64) : Decidable (FreqLeast s need) :=
  inferInstanceAs (Decidable (∀ v ∈ MemoryLfuda.policy.dropped s need,
    ∀ n ∈ MemoryLfuda.policy.behind s v.addr, _))

/-- The evictions of a call are of entries with the least `freq` among those of their `eff`. -/
def EvictsLeast (s : MemoryLfuda.State) : MemoryLfuda.Op → Prop
  | .call (.put c) => FreqLeast s c.size
  | .call (.resize n) => FreqLeast { s with maxSize := n } 0
  | _ => True

instance (s : MemoryLfuda.State) : (op : MemoryLfuda.Op) → Decidable (EvictsLeast s op)
  | .call (.put c) => inferInstanceAs (Decidable (FreqLeast s c.size))
  | .call (.resize n) => inferInstanceAs (Decidable (FreqLeast { s with maxSize := n } 0))
  | .init _ _ => inferInstanceAs (Decidable True)
  | .call (.renew _ _) => inferInstanceAs (Decidable True)
  | .call (.update _ _) => inferInstanceAs (Decidable True)
  | .call (.query _) => inferInstanceAs (Decidable True)
  | .call .backup => inferInstanceAs (Decidable True)

/-- The two objects hold the same rows and the same aging, and have evicted the same. -/
structure Same (s : MemoryLfuda.State) (w : Lfuda.World) : Prop where
  entries : (s.nodes.vals.map Cache.stored).Perm (w.table.rows.map entry)
  aging : s.extra.aging = w.metaMem.extra
  delivered : s.delivered.map (·.map Cache.stored) = w.delivered.map (·.map (Cache.taken id))

/-- After every call of a run of the two they hold the same and have evicted the same. Each call
comes with the way the SQLite-backed class resolves its ties. -/
def Lockstep (M : UInt64) (is : List (Lfuda.Resolver × Lfuda.Op)) : Prop :=
  ∀ before after, is = before ++ after →
    Same (run MemoryLfuda.step (MemoryLfuda.start M) (before.map fun i => .call i.2)).2
      (run Lfuda.step (Lfuda.start M) before).2

/-! ## The victim -/

/-- SQLite's signed order is the program's where the numbers are small. -/
theorem toInt_column {x : Int64} (h : (columnUInt64 x).toNat < 2 ^ 63) :
    x.toInt = (columnUInt64 x).toNat := by
  have hnat : (columnUInt64 x).toNat = x.toBitVec.toNat := rfl
  rw [← Int64.toInt_toBitVec, BitVec.toInt_eq_toNat_of_lt (by omega), hnat]

/-- The numbers a row is sorted by. -/
structure Small (r : Lfuda.Row) : Prop where
  eff : (columnUInt64 r.cols.eff).toNat < 2 ^ 63
  freq : (columnUInt64 r.cols.freq).toNat < 2 ^ 63
  timestamp : (columnUInt64 r.cols.timestamp).toNat < 2 ^ 63
  size : (columnUInt64 r.size).toNat < 2 ^ 63

/-- `operator<` and the SQL order, of two entries the first of which has the smaller `freq` if
they have the same `eff`. -/
theorem rankKey_le {a b : Lfuda.Row} {c d : MemoryLfuda.Cache} (ha : Small a) (hb : Small b)
    (hc : c.stored = entry a) (hd : d.stored = entry b) (hka : c.key = a.key) (hkb : d.key = b.key)
    (hle : MemoryLfuda.rank c ≤ MemoryLfuda.rank d)
    (hfreq : c.fields.eff = d.fields.eff → c.fields.freq ≤ d.fields.freq) :
    rankKey a ≤ rankKey b := by
  have hvals : ∀ (c : MemoryLfuda.Cache) (r : Lfuda.Row), c.stored = entry r →
      c.size = columnUInt64 r.size ∧ c.fields = Lfuda.columnTfe r.cols := by
    intro c r h
    exact ⟨congrArg (fun x => x.2.1) h, congrArg (fun x => x.2.2.2.2) h⟩
  obtain ⟨hsa, hfa⟩ := hvals c a hc
  obtain ⟨hsb, hfb⟩ := hvals d b hd
  rw [MemoryLfuda.rank, MemoryLfuda.rank, hsa, hsb, hfa, hfb, hka, hkb] at hle
  rw [hfa, hfb] at hfreq
  simp only [Lfuda.columnTfe, Prod.Lex.toLex_le_toLex, ← UInt64.toNat_inj,
    UInt64.le_iff_toNat_le] at hle hfreq
  simp only [rankKey, Lfuda.rank, Prod.Lex.toLex_le_toLex, Prod.Lex.toLex_lt_toLex,
    toInt_column ha.eff, toInt_column ha.freq, toInt_column ha.timestamp, toInt_column ha.size,
    toInt_column hb.eff, toInt_column hb.freq, toInt_column hb.timestamp, toInt_column hb.size,
    EmbeddingLike.apply_eq_iff_eq, Prod.mk.injEq, Nat.cast_lt, Nat.cast_inj]
  generalize a.key.map UInt8.toNat = k at hle ⊢
  generalize b.key.map UInt8.toNat = k' at hle ⊢
  rcases hle with he | ⟨he, hle⟩
  · exact .inl (.inl he)
  rcases (hfreq he).lt_or_eq with hf | hf
  · exact .inl (.inr ⟨he, .inl hf⟩)
  rcases hle with ht | ⟨ht, hle⟩
  · exact .inl (.inr ⟨he, .inr ⟨hf, .inl ht⟩⟩)
  rcases hle with hz | ⟨hz, hk⟩
  · exact .inl (.inr ⟨he, .inr ⟨hf, .inr ⟨ht, hz⟩⟩⟩)
  · exact .inr ⟨⟨he, hf, ht, hz⟩, hk⟩

variable {s : MemoryLfuda.State} {w : Lfuda.World} {n : Node MemoryLfuda.Cache}
  {rest : List (Node MemoryLfuda.Cache)} {need : UInt64}

/-- The first node of the set is the row that SQLite picks, unless an entry of its `eff` has a
smaller `freq`. -/
theorem byKey_pick (hm : Mirrors (Lfuda.policy byKey) id s w)
    (hsorted : s.nodes.Sorted MemoryLfuda.lt) (hsmall : ∀ r ∈ w.table.rows, Small r)
    (ho : s.nodes.nodes = n :: rest)
    (hfreq : ∀ m ∈ rest, m.val.fields.eff = n.val.fields.eff →
      n.val.fields.freq ≤ m.val.fields.freq) :
    ∃ r, byKey.pick w.table = some r ∧ n.val.stored = entry r := by
  have hn : n ∈ s.nodes.nodes := ho ▸ List.mem_cons_self
  obtain ⟨a, ha, hc⟩ := hm.row_of_node hn
  rcases hr : byKey.pick w.table with _ | r
  · rw [byKey.pick_none hr] at ha
    simp at ha
  have hrw := byKey.pick_mem hr
  obtain ⟨m, hmem, hkm, hcm⟩ := hm.node_of_key hrw
  have hka : n.val.key = a.key :=
    (congrArg Prod.fst hc.symm).trans (hm.sound.plain.entry_key ha)
  -- `n` is not after the node of the row that is picked, in either order
  have hfirst : MemoryLfuda.rank n.val ≤ MemoryLfuda.rank m.val
      ∧ (n.val.fields.eff = m.val.fields.eff → n.val.fields.freq ≤ m.val.fields.freq) := by
    have hs : (n :: rest).Pairwise fun a b => MemoryLfuda.lt a.val b.val = true := ho ▸ hsorted
    rw [ho] at hmem
    rcases List.mem_cons.1 hmem with rfl | hmem
    · exact ⟨le_rfl, fun _ => UInt64.le_refl _⟩
    · have hlt := (List.pairwise_cons.1 hs).1 m hmem
      exact ⟨((MemoryLfuda.lt_iff _ _).1 hlt).le, fun he => hfreq m hmem he.symm⟩
  have hle := rankKey_le (hsmall a ha) (hsmall r hrw) hc.symm hcm hka hkm hfirst.1 hfirst.2
  have hge : rankKey r ≤ rankKey a := least_le rankKeyLt_iff hr a ha
  have hkeys : r.key.map UInt8.toNat = a.key.map UInt8.toNat :=
    congrArg (fun x => (ofLex x).2) (le_antisymm hge hle)
  have hkey : r.key = a.key := List.map_injective_iff.2 (fun _ _ => UInt8.toNat_inj.1) hkeys
  rw [Table.eq_of_key hrw ha hkey]
  exact ⟨a, rfl, hc.symm⟩

/-! ## `remove_cache` -/

/-- What the loops keep besides the entries. -/
structure InStep (need : UInt64) (s : MemoryLfuda.State) (w : Lfuda.World) : Prop where
  sorted : s.nodes.Sorted MemoryLfuda.lt
  aging : s.extra.aging = w.metaMem.extra
  small : ∀ r ∈ w.table.rows, Small r
  freqLeast : FreqLeast s need

theorem inStep_evictOne (hm : Mirrors (Lfuda.policy byKey) id s w) (h : InStep need s w)
    (ho : s.nodes.nodes = n :: rest) (hover : s.cacheSize + need > s.maxSize) :
    ∃ r, byKey.pick w.table = some r ∧ n.val.stored = entry r
      ∧ InStep need (MemoryLfuda.policy.evictOne s n)
        ((Lfuda.policy byKey).evictOne w r) := by
  have hdropped := MemoryPolicy.dropped_cons (P := MemoryLfuda.policy) ho hover
  have hrest : (MemoryLfuda.policy.evictOne s n).nodes.nodes = rest :=
    MemoryPolicy.order_erase (P := MemoryLfuda.policy) ho
  have hbehind : MemoryLfuda.policy.behind s n.addr = rest := by
    show (s.nodes.nodes.dropWhile _).tail = rest
    rw [ho, List.dropWhile_cons_of_neg (by simp)]
    rfl
  obtain ⟨r, hr, hc⟩ := byKey_pick hm h.sorted h.small ho fun m hmem => by
    refine h.freqLeast n ?_ m (hbehind ▸ hmem)
    rw [hdropped]
    exact List.mem_cons_self
  refine ⟨r, hr, hc, Nodes.sorted_erase h.sorted n.addr, ?_, fun r' hr' => ?_, ?_⟩
  · exact congrArg (fun x : Stored Tfe => x.2.2.2.2.eff) hc
  · exact h.small r' (Table.delete_subset hr')
  · intro v hv m hmem
    have hvn : n.addr ≠ v.addr := by
      have hvs := (MemoryPolicy.dropped_isPrefix _ _).subset hv
      exact fun ha => (Nodes.mem_erase.1 hvs).2 ha.symm
    refine h.freqLeast v (hdropped ▸ List.mem_cons_of_mem _ hv) m ?_
    show m ∈ (s.nodes.nodes.dropWhile _).tail
    rw [ho, List.dropWhile_cons_of_pos (by simpa using hvn), ← hrest]
    exact hmem

theorem mirrors_shrink (hm : Mirrors (Lfuda.policy byKey) id s w) (h : InStep need s w) :
    Mirrors (Lfuda.policy byKey) id (MemoryLfuda.policy.shrink s need)
        ((Lfuda.policy byKey).shrink w need)
      ∧ (MemoryLfuda.policy.shrink s need).extra.aging
        = ((Lfuda.policy byKey).shrink w need).metaMem.extra := by
  obtain ⟨h1, h2, h3⟩ := Mirrors.evict (P := MemoryLfuda.policy) need
    (fun s w n rest hm h ho hover => inStep_evictOne hm h ho hover) hm h
  refine ⟨h1.deliver h3, ?_⟩
  have hextra : (MemoryLfuda.policy.shrink s need).extra
      = (MemoryLfuda.policy.evict s (MemoryLfuda.policy.dropped s need)).extra := by
    unfold MemoryPolicy.shrink Memory.deliver
    split_ifs <;> rfl
  rw [hextra, Policy.shrink_metaMem]
  exact h2.aging

/-! ## One call -/

/-- The two objects between two calls. -/
structure Twins (w : Lfuda.World) (s : MemoryLfuda.State) : Prop where
  mirrors : Mirrors (Lfuda.policy byKey) id s w
  rep : MemoryLfuda.Rep s
  aging : s.extra.aging = w.metaMem.extra
  small : ∀ r ∈ w.table.rows, Small r
  inv : Inv Lfuda.Good w
  fails : w.fails = []

theorem Twins.same (h : Twins w s) : Same s w where
  entries := by
    rw [Nodes.vals, List.map_map]
    exact h.mirrors.entries
  aging := h.aging
  delivered := h.mirrors.delivered

theorem small_newRow {x : UInt64} {c : Lfuda.Cache} (hx : x.toNat + 1 < 2 ^ 63)
    (hsize : c.size.toNat < 2 ^ 63) (hts : c.fields.timestamp.toNat < 2 ^ 63) :
    Small ((Lfuda.algo byKey).newRow x c) := by
  refine ⟨?_, ?_, ?_, ?_⟩
  · show (columnUInt64 (bindUInt64 (x + 1))).toNat < _
    rw [column_bind, UInt64.toNat_add, UInt64.toNat_one, Nat.mod_eq_of_lt (by omega)]
    exact hx
  · show (columnUInt64 (bindUInt64 1)).toNat < _
    rw [column_bind]
    decide
  · show (columnUInt64 (bindUInt64 c.fields.timestamp)).toNat < _
    rw [column_bind]
    exact hts
  · show (columnUInt64 (bindUInt64 c.size)).toNat < _
    rw [column_bind]
    exact hsize

/-- The columns a renewal leaves, at a time that is not before the last. -/
theorem columnTfe_touch {x ts : UInt64} {c : LfudaCols} (hts : columnUInt64 c.timestamp ≤ ts) :
    Lfuda.columnTfe (Lfuda.touch x ts c)
      = ⟨ts, columnUInt64 c.freq + 1, columnUInt64 c.freq + 1 + x⟩ := by
  rw [Lfuda.touch, if_neg (UInt64.not_lt.2 hts)]
  exact (Lfuda.policy byKey).column_bindCols _

theorem small_touchRow {x ts : UInt64} {r : Lfuda.Row} (hr : Small r)
    (hx : Lfuda.freq r + 1 + x.toNat < 2 ^ 63) (hlt : ts.toNat < 2 ^ 63)
    (hts : columnUInt64 r.cols.timestamp ≤ ts) : Small (touchRow Lfuda.touch x ts r) := by
  have htouch := columnTfe_touch (x := x) hts
  have heff := Lfuda.touchRow_eff (x := x) ts hx
  have hfreq := Lfuda.touchRow_freq (x := x) ts hx
  refine ⟨?_, ?_, ?_, hr.size⟩
  · show Lfuda.eff _ < _
    omega
  · show Lfuda.freq _ < _
    omega
  · have htime : columnUInt64 (Lfuda.touch x ts r.cols).timestamp = ts :=
      congrArg Tfe.timestamp htouch
    show (columnUInt64 (Lfuda.touch x ts r.cols).timestamp).toNat < _
    rw [htime]
    exact hlt

theorem mirrors_put {c : Lfuda.Cache} {t : Lfuda.Table}
    (hm : Mirrors (Lfuda.policy byKey) id s w) (hrep : MemoryLfuda.Rep s)
    (ha : s.extra.aging = w.metaMem.extra)
    (hsum : w.metaMem.cacheSize.toNat + c.size.toNat < 2 ^ 64) (hk : KeyExact c.key)
    (hmem : c.key ∉ w.table.keys)
    (ht : w.table.insert ((Lfuda.algo byKey).newRow w.metaMem.extra c) = some t)
    (hw : Sound ((Lfuda.algo byKey).insertWorld w t c.size)) (s' : MemoryLfuda.State)
    (hs' : s' = MemoryLfuda.emplace { s with cacheSize := s.cacheSize + c.size }
      (MemoryLfuda.stamped s c)) :
    Mirrors (Lfuda.policy byKey) id s' ((Lfuda.algo byKey).insertWorld w t c.size)
      ∧ MemoryLfuda.Rep s' ∧ s'.extra.aging = w.metaMem.extra := by
  have hl : s.map.lookup (MemoryLfuda.stamped s c).key = none := (hm.lookup_eq_none c.key).2 hmem
  have hrow : entry ((Lfuda.algo byKey).newRow w.metaMem.extra c)
      = (MemoryLfuda.stamped s c).stored := by
    rw [MemoryLfuda.stamped, ha]
    exact entry_bindRow hk
  have heq := MemoryLfuda.emplace_eq hrep.wellFormed hrep.sorted hl
  have hrep' : MemoryLfuda.Rep s' := by
    subst hs'
    refine MemoryLfuda.rep_emplace hrep hl ?_
    rw [hm.cacheSize]
    exact hsum
  have hs : s' = { MemoryLfuda.emplace s (MemoryLfuda.stamped s c) with
      cacheSize := s.cacheSize + c.size } := hs'
  rw [heq] at hs
  have hnodes : s'.nodes.nodes.Perm (⟨s.nodes.next, MemoryLfuda.stamped s c⟩ :: s.nodes.nodes) := by
    rw [hs]
    exact Nodes.perm_insert
  have hrows : t.rows.Perm ((Lfuda.algo byKey).newRow w.metaMem.extra c :: w.table.rows) := by
    rw [Table.insert_rows ht]
    exact List.perm_append_singleton _ _
  have hentries := (hrows.map entry).symm
  rw [List.map_cons, hrow] at hentries
  refine ⟨⟨hrep'.wellFormed, hw, (hnodes.map _).trans ((hm.entries.cons _).trans hentries), ?_, ?_⟩,
    hrep', ?_⟩
  · rw [hs]
    exact hm.maxSize
  · rw [hs]
    exact hm.delivered
  · rw [hs]
    exact ha

theorem mirrors_renew {r : Lfuda.Row} {t : Lfuda.Table} {ts : UInt64}
    (hm : Mirrors (Lfuda.policy byKey) id s w) (hrep : MemoryLfuda.Rep s)
    (ha : s.extra.aging = w.metaMem.extra) (hr : r ∈ w.table.rows) (hn : n ∈ s.nodes.nodes)
    (hc : n.val.stored = entry r)
    (hts : columnUInt64 r.cols.timestamp ≤ ts)
    (ht : w.table.update r.key (touchRow Lfuda.touch w.metaMem.extra ts) = some t)
    (s' : MemoryLfuda.State)
    (hs' : s' = MemoryLfuda.reinserted s n (MemoryLfuda.renewed s n.val ts) s.cacheSize) :
    Mirrors (Lfuda.policy byKey) id s' ((Lfuda.algo byKey).renewWorld w t)
      ∧ MemoryLfuda.Rep s' ∧ s'.extra.aging = w.metaMem.extra := by
  have hrow : entry (touchRow Lfuda.touch w.metaMem.extra ts r)
      = (MemoryLfuda.renewed s n.val ts).stored := by
    have htouch := columnTfe_touch (x := w.metaMem.extra) hts
    unfold entry Policy.entry Cache.taken Cache.stored at hc ⊢
    simp only [Prod.mk.injEq] at hc ⊢
    obtain ⟨hk, hz, hd, hh, hf⟩ := hc
    refine ⟨hk.symm, hz.symm, hd.symm, hh.symm, htouch.trans ?_⟩
    rw [MemoryLfuda.renewed, hf, ha]
    rfl
  obtain ⟨heq, -⟩ := MemoryLfuda.reinserted_eq hrep hn
    (c := MemoryLfuda.renewed s n.val ts) rfl s.cacheSize
  have hrep' : MemoryLfuda.Rep s' := by
    subst hs'
    exact MemoryLfuda.rep_reinserted (c := MemoryLfuda.renewed s n.val ts) hrep hn rfl rfl
  have hnodes : s'.nodes.nodes.Perm
      (⟨n.addr, MemoryLfuda.renewed s n.val ts⟩ :: (s.nodes.erase n.addr).nodes) := by
    have hp := Nodes.perm_relink (s := s.nodes.erase n.addr) (p := .ordered MemoryLfuda.lt)
      (a := MemoryLfuda.renewed s n.val ts) (s.nodes.lt_next n hn)
    rw [Nodes.erase_erase] at hp
    rw [hs', heq]
    exact hp
  have hrest : ((s.nodes.erase n.addr).nodes.map fun n => n.val.stored).Perm
      ((w.table.delete r.key).rows.map entry) := by
    have hp := ((Nodes.perm_erase hn).map fun n => n.val.stored).symm.trans
      (hm.entries.trans ((Table.delete_perm hr).map entry))
    rw [List.map_cons, List.map_cons, hc] at hp
    exact hp.cons_inv
  have hrows := ((Table.update_perm ht hr).map entry).symm
  rw [List.map_cons, hrow] at hrows
  refine ⟨⟨hrep'.wellFormed, (Lfuda.algo byKey).sound_renewWorld hm.sound ht,
    (hnodes.map _).trans ((hrest.cons _).trans hrows), ?_, ?_⟩, hrep', ?_⟩
  · rw [hs', heq]
    exact hm.maxSize
  · rw [hs', heq]
    exact hm.delivered
  · rw [hs', heq]
    exact ha

/-- The two objects after a call, as far as the call does not keep it of the second alone. -/
structure Follows (w : Lfuda.World) (s : MemoryLfuda.State) : Prop where
  mirrors : Mirrors (Lfuda.policy byKey) id s w
  rep : MemoryLfuda.Rep s
  aging : s.extra.aging = w.metaMem.extra
  small : ∀ r ∈ w.table.rows, Small r

theorem Twins.follows (h : Twins w s) : Follows w s := ⟨h.mirrors, h.rep, h.aging, h.small⟩

theorem follows_put {c : Lfuda.Cache} {t : Lfuda.Table} (h : Twins w s) (hkey : KeyExact c.key)
    (hcom : Common w (.put c)) (hne : c.key ≠ [])
    (hsum : w.metaMem.cacheSize.toNat + c.size.toNat < 2 ^ 64)
    (hx : ((Lfuda.policy byKey).shrink (w.tick 1) c.size).metaMem.extra.toNat + 1 < 2 ^ 63)
    (hleast : FreqLeast s c.size)
    (ht : ((Lfuda.policy byKey).shrink (w.tick 1) c.size).table.insert
      ((Lfuda.algo byKey).newRow ((Lfuda.policy byKey).shrink (w.tick 1) c.size).metaMem.extra c)
        = some t)
    (hsound : Sound ((Lfuda.algo byKey).insertWorld
      ((Lfuda.policy byKey).shrink (w.tick 1) c.size) t c.size)) :
    Follows ((Lfuda.algo byKey).insertWorld
        ((Lfuda.policy byKey).shrink (w.tick 1) c.size) t c.size)
      (MemoryLfuda.step s (.call (.put c))).2 := by
  obtain ⟨hm, hrep, haging, hsmall, hI, -⟩ := h
  have hle := Policy.shrink_cacheSize_le (Lfuda.policy byKey) (hI.sound.tick 1) c.size
  have hlt : ((Lfuda.policy byKey).shrink (w.tick 1) c.size).metaMem.cacheSize.toNat
      + c.size.toNat < 2 ^ 64 := (Nat.add_le_add_right hle _).trans_lt hsum
  obtain ⟨hm', haging'⟩ := mirrors_shrink (hm.tick 1) ⟨hrep.sorted, haging, hsmall, hleast⟩
  have hsub : ∀ r ∈ ((Lfuda.policy byKey).shrink (w.tick 1) c.size).table.rows,
      r ∈ w.table.rows := fun r hr => Policy.shrink_subset (w := w.tick 1) hr
  have hnew : c.key ∉ ((Lfuda.policy byKey).shrink (w.tick 1) c.size).table.keys := by
    rw [Table.mem_keys]
    rintro ⟨r, hr, hk⟩
    exact hcom.1 (Table.mem_keys.2 ⟨r, hsub r hr, hk⟩)
  have hput : MemoryLfuda.step s (.call (.put c)) = _ :=
    outcome_map _ (MemoryLfuda.put_absent hrep hne hcom.2.1
      ((hm.lookup_eq_none c.key).2 hcom.1) _ rfl)
  rw [hput]
  obtain ⟨h1, h2, h3⟩ := mirrors_put hm' (MemoryLfuda.rep_shrink hrep c.size) haging' hlt hkey hnew
    ht hsound _ rfl
  refine ⟨h1, h2, h3, fun r hr => ?_⟩
  have hrt : r ∈ t.rows := hr
  rw [Table.insert_rows ht, List.mem_append, List.mem_singleton] at hrt
  rcases hrt with hr | rfl
  · exact hsmall r (hsub r hr)
  · exact small_newRow hx hcom.2.2.2.1 hcom.2.2.2.2

theorem follows_renew {r : Lfuda.Row} {t : Lfuda.Table} {ts : UInt64} (h : Follows w s)
    (hr : r ∈ w.table.rows) (hlt : ts.toNat < 2 ^ 63) (hts : columnUInt64 r.cols.timestamp ≤ ts)
    (hcount : Lfuda.freq r + 1 + w.metaMem.extra.toNat < 2 ^ 63)
    (ht : w.table.update r.key (touchRow Lfuda.touch w.metaMem.extra ts) = some t) :
    Follows ((Lfuda.algo byKey).renewWorld w t)
      (MemoryLfuda.step s (.call (.renew r.key ts))).2 := by
  obtain ⟨hm, hrep, haging, hsmall⟩ := h
  obtain ⟨n, hn, hkn, hc⟩ := hm.node_of_key hr
  have hrenew : MemoryLfuda.step s (.call (.renew r.key ts)) = _ :=
    outcome_map _ (MemoryLfuda.renew_resident hrep hn hkn ts)
  rw [hrenew]
  obtain ⟨h1, h2, h3⟩ := mirrors_renew hm hrep haging hr hn hc hts ht _ rfl
  refine ⟨h1, h2, h3, fun r' hr' => ?_⟩
  obtain ⟨r₀, h₀, rfl⟩ := (Table.mem_update ht).1 hr'
  split_ifs with hk₀
  · rw [Table.eq_of_key h₀ hr hk₀]
    exact small_touchRow (hsmall r hr) hcount hlt hts
  · exact hsmall r₀ h₀

theorem follows_resize {n : UInt64} (h : Follows w s) (hn : n ≠ 0)
    (hleast : FreqLeast { s with maxSize := n } 0) :
    Follows ((Lfuda.policy byKey).shrink { w with metaMem := { w.metaMem with maxSize := n } } 0)
      (MemoryLfuda.step s (.call (.resize n))).2 := by
  obtain ⟨hm, hrep, haging, hsmall⟩ := h
  have hrep' : MemoryLfuda.Rep { s with maxSize := n } :=
    ⟨hrep.wellFormed.limit n, hrep.sorted, hrep.rejected⟩
  have hresize : MemoryLfuda.step s (.call (.resize n))
      = (.ok .unit, MemoryLfuda.policy.shrink { s with maxSize := n } 0) :=
    outcome_map _ (MemoryPolicy.resize_eq MemoryLfuda.size_eq_zero hrep.wellFormed hn)
  rw [hresize]
  obtain ⟨h1, h2⟩ := mirrors_shrink (hm.limit hn) ⟨hrep.sorted, haging, hsmall, hleast⟩
  refine ⟨h1, MemoryLfuda.rep_shrink hrep' 0, h2, fun r hr => hsmall r ?_⟩
  exact Policy.shrink_subset (w := { w with metaMem := { w.metaMem with maxSize := n } }) hr

theorem follows_rejected {op : Lfuda.Op} {e : AlgoError} (h : Follows w s) (hcom : Common w op)
    (hrej : (Lfuda.algo byKey).Rejects w op e) :
    Follows w (MemoryLfuda.step s (.call op)).2 := by
  cases op with
  | put c =>
    have hnull : c.key = [] := by
      rcases hrej with ⟨hk, -⟩ | ⟨-, hz | hz, -⟩
      · exact hk
      · exact absurd hz hcom.2.1
      · exact absurd hcom.2.2.1 (UInt64.not_le.2 hz)
    have hput : MemoryLfuda.step s (.call (.put c)) = (.error (.algo .cacheKeyNull), s) :=
      outcome_map _ (MemoryLfuda.put_keyNull hnull)
    rw [hput]
    exact h
  | renew k ts => exact absurd hrej.1 hcom.1
  | update k n => exact hcom.elim
  | resize n => exact absurd hrej.1 hcom
  | query k => exact hcom.elim
  | backup => exact hcom.elim

theorem step_twins (w : Lfuda.World) (s : MemoryLfuda.State) (op : Lfuda.Op) (h : Twins w s)
    (hadm : Admits w (byKey, op) ∧ Forward w op) (hleast : EvictsLeast s (.call op)) :
    Twins (Lfuda.step w (byKey, op)).2 (MemoryLfuda.step s (.call op)).2 := by
  obtain ⟨⟨⟨hkey, hno⟩, hcom⟩, hforward⟩ := hadm
  have hI := h.inv
  have hq := h.fails
  have heff := (Lfuda.algo byKey).call_effect hI.sound op
  have hres := Algo.effect_not_sqlite (Lfuda.keeps byKey) hI.good hno hq heff
  obtain ⟨hI', hq'⟩ := (Lfuda.step_inv w (byKey, op) ⟨hI, hq⟩ ⟨hkey, hno⟩).1
  have hb := hkey.bound
  suffices H : Follows (Lfuda.step w (byKey, op)).2 (MemoryLfuda.step s (.call op)).2 from
    ⟨H.mirrors, H.rep, H.aging, H.small, hI', hq'⟩
  have hsound := hI'.sound
  rw [← Lfuda.call_eq, show outcome (Lfuda.call byKey op) w = Lfuda.step w (byKey, op) from rfl]
    at heff hres
  generalize (Lfuda.step w (byKey, op)).1 = res at heff hres
  generalize (Lfuda.step w (byKey, op)).2 = w' at heff hsound ⊢
  cases heff with
  | rejected _ e hrej => exact follows_rejected h.follows hcom hrej
  | failed | putEvictFailed | putInsertFailed | putConflict | putRenewConflict | renewConflict
  | resizeFailed => exact absurd rfl (hres _)
  | put c t hc hmem ht =>
    obtain ⟨hsum, hx⟩ := (hno hc).1 hmem
    have hx' : ((Lfuda.policy byKey).shrink (w.tick 1) c.size).metaMem.extra.toNat + 1
        < 2 ^ 63 := by
      have : (((Lfuda.policy byKey).shrink (w.tick 1) c.size).metaMem.extra.toNat : ℤ) + 1
        < 2 ^ 63 := hx
      omega
    exact follows_put h hkey hcom hc.1 hsum hx' hleast ht hsound
  | putRenewed c r t hc hr hk =>
    exact absurd (Table.mem_keys.2 ⟨r, hr, hk.trans hb⟩) hcom.1
  | putGrown c r t res' w' hc hr hk =>
    exact absurd (Table.mem_keys.2 ⟨r, hr, hk.trans hb⟩) hcom.1
  | renewMissing k ts hne hmem =>
    rw [show bindText k = k from hb] at hmem
    have hrenew : MemoryLfuda.step s (.call (.renew k ts)) = (.ok (.bool false), s) :=
      outcome_map _ (MemoryLfuda.renew_absent ((h.mirrors.lookup_eq_none k).2 hmem))
    rw [hrenew]
    exact ⟨h.mirrors.tick 1, h.rep, h.aging, h.small⟩
  | renewed k ts t hne hmem ht =>
    obtain ⟨r, hr, hk⟩ := Table.mem_keys.1 hmem
    obtain rfl : r.key = k := hk.trans hb
    have hcount : Lfuda.freq r + 1 + w.metaMem.extra.toNat < 2 ^ 63 := by
      have : (Lfuda.freq r : ℤ) + 1 + w.metaMem.extra.toNat < 2 ^ 63 := hno r hr hk
      omega
    exact follows_renew h.follows hr hcom.2 (hforward r hr rfl) hcount (hk ▸ ht)
  | updateMissing k n => exact hcom.elim
  | updated k n => exact hcom.elim
  | resize n w₁ hn hw₁ =>
    subst hw₁
    exact follows_resize h.follows hn hleast
  | query k => exact hcom.elim
  | backup => exact hcom.elim

/-! ## Runs -/

theorem twins_start {M : UInt64} (hM : M ≠ 0) : Twins (Lfuda.start M) (MemoryLfuda.start M) := by
  have hrows : (Lfuda.start M).table.rows = [] := by
    rw [Lfuda.start_table hM]
    rfl
  have hdelivered : (Lfuda.start M).delivered = [] := by
    rw [Lfuda.start, Lfuda.init_fresh .first hM]
    rfl
  refine ⟨⟨WellFormed.construct M _, (Lfuda.inv_start hM).sound, ?_, ?_, ?_⟩,
    MemoryLfuda.rep_start M, ?_, ?_, Lfuda.inv_start hM, Lfuda.start_fails hM⟩
  · rw [hrows]
    exact List.Perm.refl _
  · rw [Lfuda.start_metaMem hM]
    rfl
  · simp [hdelivered, MemoryLfuda.start, Memory.construct]
  · rw [Lfuda.start_metaMem hM]
    rfl
  · rw [hrows]
    simp

/-- In every run of the two from empty, with the same calls, in which no renewal goes back in time
and every eviction of the in-memory class is of an entry with the least `freq` among those of its
`eff`: if SQLite breaks ties by key, they hold the same rows and the same aging after every call,
and have evicted the same entries in the same order. -/
theorem lfuda_lockstep {M : UInt64} (hM : M ≠ 0) (ops : List Lfuda.Op)
    (hops : RunOk Lfuda.step (fun w i => Admits w i ∧ Forward w i.2) (Lfuda.start M)
      (ops.map (byKey, ·)))
    (hleast : RunOk MemoryLfuda.step EvictsLeast (MemoryLfuda.start M) (ops.map .call)) :
    Lockstep M (ops.map (byKey, ·)) := by
  intro before after heq
  obtain ⟨pre, post, rfl, rfl, rfl⟩ := List.map_eq_append_iff.1 heq
  rw [List.map_append] at hops hleast
  have hpre := (runOk_append.1 hleast).1
  have h := run_related (byKey, ·) MemoryOp.call step_twins _ _ pre (twins_start hM)
    (runOk_append.1 hops).1 hpre
  rw [List.map_map]
  exact h.same

/-- Two files, the first of them renewed once before the aging and the second put after it: they
have the same `eff`. -/
theorem lfuda_lockstep_eight :
    Lockstep 8 ([.put ⟨[97], 4, 0, [], ⟨1, 0, 0⟩⟩, .renew [97] 2, .put ⟨[99], 4, 0, [], ⟨3, 0, 0⟩⟩,
      .resize 7, .put ⟨[98], 3, 0, [], ⟨4, 0, 0⟩⟩, .renew [97] 5, .resize 6].map (byKey, ·)) :=
  lfuda_lockstep (by decide) _ (by decide) (by decide)

end LfudaMirror

end XCache
