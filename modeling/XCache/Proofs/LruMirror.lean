import XCache.Proofs.Recency
import XCache.Proofs.Mirror
import XCache.Proofs.MemoryLru

/-!
# The two LRUs agree

`cache_list` from its back on is the rows by sequence, and every call that both classes have leaves
it so: an insertion and a renewal put at the front what gets the next sequence, and the two loops
evict at the other end. The one call that tells the classes apart is `query` of the empty key.
-/

namespace XCache

namespace LruMirror

/-- A row in the list. -/
abbrev entry (r : Lru.Row) : Stored Unit := Lru.policy.entry (fun _ => ()) r

/-- The same call of the in-memory class. -/
def memoryOp : Lru.Op → MemoryLru.Op
  | .put c => .call (.put (c.mapFields fun _ => ()))
  | .renew k a => .call (.renew k a)
  | .update k n => .call (.update k n)
  | .resize n => .call (.resize n)
  | .query k => .call (.query k)
  | .backup => .call .backup

/-- The calls the two are compared on: `put` of a key that is not resident and a size that can fit,
`renew` of a key, `resize` and `query`. -/
def Common (w : Lru.World) : Lru.Op → Prop
  | .put c => c.key ∉ w.table.keys ∧ c.size ≠ 0 ∧ c.size ≤ w.metaMem.maxSize
  | .renew k _ => k ≠ []
  | .update _ _ => False
  | .resize n => n ≠ 0
  | .query _ => True
  | .backup => False

instance (w : Lru.World) : (op : Lru.Op) → Decidable (Common w op)
  | .put c => inferInstanceAs (Decidable (c.key ∉ w.table.keys ∧ _ ∧ _))
  | .renew k _ => inferInstanceAs (Decidable (k ≠ []))
  | .update _ _ => inferInstanceAs (Decidable False)
  | .resize n => inferInstanceAs (Decidable (n ≠ 0))
  | .query _ => inferInstanceAs (Decidable True)
  | .backup => inferInstanceAs (Decidable False)

/-- What a call of a run of both is asked. -/
def Admits (w : Lru.World) (op : Lru.Op) : Prop := Lru.algo.Admits w op ∧ Common w op

instance (w : Lru.World) (op : Lru.Op) : Decidable (Admits w op) :=
  inferInstanceAs (Decidable (_ ∧ _))

/-- The rows by descending sequence. -/
def newestFirst (w : Lru.World) : List Lru.Row :=
  (w.table.rows.insertionSort fun a b => Lru.seq a ≤ Lru.seq b).reverse

/-- The two objects hold the same: the list from its front to its back is the rows by descending
sequence. -/
structure Same (s : MemoryLru.State) (w : Lru.World) : Prop where
  entries : s.nodes.vals.map Cache.stored = (newestFirst w).map entry
  cacheSize : s.cacheSize = w.metaMem.cacheSize
  maxSize : s.maxSize = w.metaMem.maxSize
  delivered : s.delivered.map (·.map Cache.stored)
    = w.delivered.map (·.map (Cache.taken fun _ => ()))

/-- Two answers to one call: if one throws, so does the other. -/
def Agree : Except MemoryError MemoryLru.Ret → Except Error Lru.Ret → Prop
  | .ok .unit, .ok .unit => True
  | .ok (.bool b), .ok (.bool b') => b = b'
  | .ok (.entry c), .ok (.entry c') => c.stored = c'.taken fun _ => ()
  | .error (.algo _), .error (.algo _) => True
  | _, _ => False

/-- The two answers to a query of the empty key. -/
def NullQuery (op : Lru.Op) (o : Except MemoryError MemoryLru.Ret) (o' : Except Error Lru.Ret) :
    Prop :=
  op = .query [] ∧ o = .ok (.entry ⟨[], 0, 0, [], ()⟩) ∧ o' = .error (.algo .keyNull)

/-- Every call of a run of the two leaves them with the same contents, and answers that `agree`. -/
def Lockstep
    (agree : Lru.Op → Except MemoryError MemoryLru.Ret → Except Error Lru.Ret → Prop)
    (M : UInt64) (ops : List Lru.Op) : Prop :=
  ∀ before op after, ops = before ++ op :: after →
    let s := (run MemoryLru.step (MemoryLru.start M) (before.map memoryOp)).2
    let w := (run Lru.step (Lru.start M) before).2
    agree op (MemoryLru.step s (memoryOp op)).1 (Lru.step w op).1
      ∧ Same (MemoryLru.step s (memoryOp op)).2 (Lru.step w op).2

/-! ## The invariant -/

/-- The list from its back on is the rows in the order they would be evicted. -/
def Ordered (s : MemoryLru.State) (w : Lru.World) : Prop :=
  (MemoryLru.policy.order s.nodes.nodes).map (fun n => n.val.stored)
    = (Lru.policy.order w.table).map entry

structure Twins (w : Lru.World) (s : MemoryLru.State) : Prop where
  mirrors : Mirrors Lru.policy (fun _ => ()) s w
  ordered : Ordered s w
  inv : Inv Lru.Good w
  fails : w.fails = []

variable {s : MemoryLru.State} {w : Lru.World}

theorem Twins.same (h : Twins w s) : Same s w where
  entries := by
    have ho : (s.nodes.nodes.reverse.map fun n => n.val.stored)
        = (Lru.policy.order w.table).map entry := h.ordered
    rw [Nodes.vals, newestFirst, Lru.sorted_eq_order, List.map_reverse, ← ho, List.map_reverse,
      List.reverse_reverse, List.map_map]
    rfl
  cacheSize := h.mirrors.cacheSize
  maxSize := h.mirrors.maxSize
  delivered := h.mirrors.delivered

theorem Ordered.entries (h : Ordered s w) :
    (s.nodes.nodes.map fun n => n.val.stored).Perm (w.table.rows.map entry) := by
  have hs := (MemoryLru.policy.order_perm s.nodes.nodes).map fun n => n.val.stored
  have hw := (Policy.order_perm (P := Lru.policy) _ w.table rfl).map entry
  rw [Ordered] at h
  exact hs.symm.trans (h ▸ hw)

/-- The node at the back is the row with the smallest sequence. -/
theorem ordered_evictOne {n : Node MemoryLru.Cache} {rest : List (Node MemoryLru.Cache)}
    (h : Ordered s w) (ho : MemoryLru.policy.order s.nodes.nodes = n :: rest) :
    ∃ r, Lru.policy.worst w.table = some r ∧ n.val.stored = entry r
      ∧ Ordered (MemoryLru.policy.evictOne s n) (Lru.policy.evictOne w r) := by
  have hrest : MemoryLru.policy.order (MemoryLru.policy.evictOne s n).nodes.nodes = rest :=
    MemoryPolicy.order_erase ho
  rw [Ordered, ho] at h
  rcases hr : Lru.policy.worst w.table with _ | r
  · rw [Policy.order_none hr] at h
    simp at h
  · rw [Policy.order_some hr, List.map_cons, List.map_cons, List.cons.injEq] at h
    refine ⟨r, rfl, h.1, ?_⟩
    rw [Ordered, hrest]
    exact h.2

theorem mirrors_shrink (hm : Mirrors Lru.policy (fun _ => ()) s w) (ho : Ordered s w)
    (need : UInt64) :
    Mirrors Lru.policy (fun _ => ()) (MemoryLru.policy.shrink s need) (Lru.policy.shrink w need)
      ∧ Ordered (MemoryLru.policy.shrink s need) (Lru.policy.shrink w need) := by
  obtain ⟨h1, h2, h3⟩ := Mirrors.evict need (fun s w n rest _ h ho _ => ordered_evictOne h ho)
    hm ho
  refine ⟨h1.deliver h3, ?_⟩
  have hnodes : (MemoryLru.policy.shrink s need).nodes
      = (MemoryLru.policy.evict s (MemoryLru.policy.dropped s need)).nodes := by
    unfold MemoryPolicy.shrink Memory.deliver
    split_ifs <;> rfl
  rw [Ordered, hnodes, Policy.shrink_table]
  exact h2

/-! ## One call -/

theorem mirrors_put {c : Lru.Cache} {t : Lru.Table}
    (hm : Mirrors Lru.policy (fun _ => ()) s w) (ho : Ordered s w)
    (hg : Lru.Good w.table w.metaMem.extra) (hx : w.metaMem.extra.toInt + 1 < 2 ^ 63)
    (hsum : w.metaMem.cacheSize.toNat + c.size.toNat < 2 ^ 64)
    (hk : KeyExact c.key) (hmem : c.key ∉ w.table.keys)
    (ht : w.table.insert (Lru.algo.newRow w.metaMem.extra c) = some t)
    (hw : Sound (Lru.algo.insertWorld w t c.size)) :
    Mirrors Lru.policy (fun _ => ()) (MemoryLru.pushFront s (c.mapFields fun _ => ()))
        (Lru.algo.insertWorld w t c.size)
      ∧ Ordered (MemoryLru.pushFront s (c.mapFields fun _ => ()))
        (Lru.algo.insertWorld w t c.size) := by
  have hrow : entry (Lru.algo.newRow w.metaMem.extra c) = (c.mapFields fun _ => ()).stored :=
    entry_bindRow hk
  have hord : Ordered (MemoryLru.pushFront s (c.mapFields fun _ => ()))
      (Lru.algo.insertWorld w t c.size) := by
    show ((⟨s.nodes.next, c.mapFields fun _ => ()⟩ :: s.nodes.nodes).reverse.map _)
      = (Lru.policy.order t).map entry
    rw [Lru.order_insert hg hx ht, List.map_append, List.reverse_cons, List.map_append,
      List.map_singleton, List.map_singleton, hrow]
    exact congrArg (· ++ _) ho
  refine ⟨⟨?_, hw, hord.entries, hm.maxSize, hm.delivered⟩, hord⟩
  refine MemoryLru.wellFormed_pushFront hm.wellFormed ((hm.lookup_eq_none _).2 hmem) ?_
  rw [hm.cacheSize]
  exact hsum

theorem mirrors_renew {n : Node MemoryLru.Cache} {r : Lru.Row} {t : Lru.Table}
    (hm : Mirrors Lru.policy (fun _ => ()) s w) (ho : Ordered s w)
    (hg : Lru.Good w.table w.metaMem.extra) (hx : w.metaMem.extra.toInt + 1 < 2 ^ 63)
    (hr : r ∈ w.table.rows) (hn : n ∈ s.nodes.nodes) (hc : n.val.stored = entry r)
    (ht : w.table.update r.key (touchRow Lru.algo.touch w.metaMem.extra ()) = some t) :
    Mirrors Lru.policy (fun _ => ()) (MemoryLru.renewed s n) (Lru.algo.renewWorld w t)
      ∧ Ordered (MemoryLru.renewed s n) (Lru.algo.renewWorld w t) := by
  have hkey : n.val.key = r.key := (congrArg Prod.fst hc).trans (hm.sound.plain.entry_key hr)
  have hnodes : (MemoryLru.renewed s n).nodes.nodes
      = ⟨n.addr, n.val⟩ :: (s.nodes.erase n.addr).nodes :=
    Nodes.relink_nodes (s.nodes.lt_next n hn)
  -- both leave out the entry of the one key
  have hnode : ∀ m ∈ s.nodes.nodes.reverse, m.addr = n.addr ↔ m.val.stored.1 = r.key := by
    intro m hmem
    rw [List.mem_reverse] at hmem
    rw [← hkey]
    refine ⟨fun ha => ?_, fun hk => ?_⟩
    · rw [Nodes.eq_of_addr hmem hn ha]
      rfl
    · rw [hm.wellFormed.eq_of_key hmem hn hk]
  have hrest : ((s.nodes.erase n.addr).nodes.reverse.map fun n => n.val.stored)
      = ((Lru.policy.order w.table).filter fun r' => r'.key ≠ r.key).map entry := by
    have hs : (s.nodes.erase n.addr).nodes.reverse
        = s.nodes.nodes.reverse.filter fun m => m.val.stored.1 ≠ r.key := by
      show (s.nodes.nodes.filter _).reverse = _
      rw [← List.filter_reverse]
      exact List.filter_congr fun m hm => by simpa using hnode m hm
    have hw : (Lru.policy.order w.table).filter (fun r' => r'.key ≠ r.key)
        = (Lru.policy.order w.table).filter fun r' => (entry r').1 ≠ r.key := by
      refine List.filter_congr fun r' hr' => ?_
      rw [hm.sound.plain.entry_key (Policy.mem_order.1 hr')]
    have hsame := congrArg (List.filter fun c => c.1 ≠ r.key) ho
    rw [List.filter_map, List.filter_map] at hsame
    rw [hs, hw]
    exact hsame
  have hord : Ordered (MemoryLru.renewed s n) (Lru.algo.renewWorld w t) := by
    show ((MemoryLru.renewed s n).nodes.nodes.reverse.map _) = (Lru.policy.order t).map entry
    rw [Lru.order_renew hg hr hx ht, hnodes, List.reverse_cons, List.map_append, List.map_append,
      hrest, List.map_singleton, List.map_singleton, hc]
    rfl
  exact ⟨⟨MemoryLru.wellFormed_renewed hm.wellFormed hn, Lru.algo.sound_renewWorld hm.sound ht,
    hord.entries, hm.maxSize, hm.delivered⟩, hord⟩

/-- One call: what the two answer and what it leaves of them. -/
def Answered (op : Lru.Op) (s : MemoryLru.State) (w : Lru.World) : Prop :=
  (Agree (MemoryLru.step s (memoryOp op)).1 (Lru.step w op).1
      ∨ NullQuery op (MemoryLru.step s (memoryOp op)).1 (Lru.step w op).1)
    ∧ Mirrors Lru.policy (fun _ => ()) (MemoryLru.step s (memoryOp op)).2 (Lru.step w op).2
    ∧ Ordered (MemoryLru.step s (memoryOp op)).2 (Lru.step w op).2

/-- The two ends of a call: `o` and `w'` those of the SQLite-backed class. -/
def Ends (op : Lru.Op) (s : MemoryLru.State) (o : Except Error Lru.Ret) (w' : Lru.World) : Prop :=
  (Agree (MemoryLru.step s (memoryOp op)).1 o
      ∨ NullQuery op (MemoryLru.step s (memoryOp op)).1 o)
    ∧ Mirrors Lru.policy (fun _ => ()) (MemoryLru.step s (memoryOp op)).2 w'
    ∧ Ordered (MemoryLru.step s (memoryOp op)).2 w'

theorem ends_rejected {op : Lru.Op} {e : AlgoError} (h : Twins w s) (hcom : Common w op)
    (hrej : Lru.algo.Rejects w op e) : Ends op s (.error (.algo e)) w := by
  obtain ⟨hm, ho, hI, -⟩ := h
  cases op with
  | put c =>
    have hnull : c.key = [] := by
      rcases hrej with ⟨hk, -⟩ | ⟨-, hz | hz, -⟩
      · exact hk
      · exact absurd hz hcom.2.1
      · exact absurd hcom.2.2 (UInt64.not_le.2 hz)
    have hput : MemoryLru.step s (memoryOp (.put c)) = (.error (.algo .cacheKeyNull), s) :=
      outcome_map _ (MemoryLru.put_keyNull hnull)
    rw [Ends, hput]
    exact ⟨.inl trivial, hm, ho⟩
  | renew k a => exact absurd hrej.1 hcom
  | update k n => exact hcom.elim
  | resize n => exact absurd hrej.1 hcom
  | query k =>
    obtain ⟨rfl, rfl⟩ := hrej
    have hnone : s.map.lookup [] = none := by
      refine (hm.lookup_eq_none []).2 fun hmem => ?_
      obtain ⟨r, hr, hk⟩ := Table.mem_keys.1 hmem
      exact hI.sound.plain.nonempty r hr hk
    have hquery : MemoryLru.step s (memoryOp (.query []))
        = (.ok (.entry ⟨[], 0, 0, [], ()⟩), s) :=
      outcome_map _ (MemoryLru.policy.query_absent hnone)
    rw [Ends, hquery]
    exact ⟨.inr ⟨rfl, rfl, rfl⟩, hm, ho⟩
  | backup => exact hcom.elim

theorem ends_put {c : Lru.Cache} {t : Lru.Table} (h : Twins w s) (hkey : KeyExact c.key)
    (hcom : Common w (.put c)) (hne : c.key ≠ [])
    (hsum : w.metaMem.cacheSize.toNat + c.size.toNat < 2 ^ 64)
    (hx : (Lru.policy.shrink (w.tick 1) c.size).metaMem.extra.toInt + 1 < 2 ^ 63)
    (ht : (Lru.policy.shrink (w.tick 1) c.size).table.insert
      (Lru.algo.newRow (Lru.policy.shrink (w.tick 1) c.size).metaMem.extra c) = some t)
    (hsound : Sound (Lru.algo.insertWorld (Lru.policy.shrink (w.tick 1) c.size) t c.size)) :
    Ends (.put c) s (.ok (.bool true))
      (Lru.algo.insertWorld (Lru.policy.shrink (w.tick 1) c.size) t c.size) := by
  obtain ⟨hm, ho, hI, -⟩ := h
  have hle := Policy.shrink_cacheSize_le Lru.policy (hI.sound.tick 1) c.size
  have hlt : (Lru.policy.shrink (w.tick 1) c.size).metaMem.cacheSize.toNat + c.size.toNat
      < 2 ^ 64 := (Nat.add_le_add_right hle _).trans_lt hsum
  obtain ⟨hm', ho'⟩ := mirrors_shrink (hm.tick 1) ho c.size
  have hnew : c.key ∉ (Lru.policy.shrink (w.tick 1) c.size).table.keys := by
    rw [Table.mem_keys]
    rintro ⟨r, hr, hk⟩
    exact hcom.1 (Table.mem_keys.2 ⟨r, Policy.shrink_subset (w := w.tick 1) hr, hk⟩)
  have hput : MemoryLru.step s (memoryOp (.put c)) = (.ok (.bool true),
      MemoryLru.pushFront (MemoryLru.policy.shrink s c.size) (c.mapFields fun _ => ())) :=
    outcome_map _ (MemoryLru.put_absent hm.wellFormed hne hcom.2.1
      ((hm.lookup_eq_none c.key).2 hcom.1))
  rw [Ends, hput]
  exact ⟨.inl rfl, mirrors_put hm' ho' (Lru.keeps.shrink (w := w.tick 1) c.size hI.good) hx hlt
    hkey hnew ht hsound⟩

theorem step_answered (h : Twins w s) (op : Lru.Op) (ha : Admits w op) : Answered op s w := by
  obtain ⟨⟨hkey, hno⟩, hcom⟩ := ha
  have ⟨hm, ho, hI, hq⟩ := h
  have heff := Lru.algo.call_effect hI.sound op
  have hres := Algo.effect_not_sqlite Lru.keeps hI.good hno hq heff
  have hsound := (Lru.step_inv w op ⟨hI, hq⟩ ⟨hkey, hno⟩).1.1.sound
  have hb := hkey.bound
  unfold Answered
  rw [← Lru.call_eq, show outcome (Lru.call op) w = Lru.step w op from rfl] at heff hres
  generalize (Lru.step w op).1 = res at heff hres ⊢
  generalize (Lru.step w op).2 = w' at heff hsound ⊢
  cases heff with
  | rejected _ e hrej => exact ends_rejected h hcom hrej
  | failed | putEvictFailed | putInsertFailed | putConflict | putRenewConflict | renewConflict
  | resizeFailed => exact absurd rfl (hres _)
  | put c t hc hmem ht =>
    obtain ⟨hsum, hx⟩ := (hno hc).1 hmem
    exact ends_put h hkey hcom hc.1 hsum hx ht hsound
  | putRenewed c r t hc hr hk =>
    exact absurd (Table.mem_keys.2 ⟨r, hr, hk.trans hb⟩) hcom.1
  | putGrown c r t res' w' hc hr hk =>
    exact absurd (Table.mem_keys.2 ⟨r, hr, hk.trans hb⟩) hcom.1
  | renewMissing k a hne hmem =>
    rw [show bindText k = k from hb] at hmem
    have hrenew : MemoryLru.step s (memoryOp (.renew k a)) = (.ok (.bool false), s) :=
      outcome_map _ (MemoryLru.renew_absent ((hm.lookup_eq_none k).2 hmem))
    rw [hrenew]
    exact ⟨.inl rfl, hm.tick 1, ho⟩
  | renewed k a t hne hmem ht =>
    obtain ⟨r, hr, hk⟩ := Table.mem_keys.1 hmem
    obtain ⟨n, hn, hkn, hc⟩ := hm.node_of_key hr
    have hrenew : MemoryLru.step s (memoryOp (.renew k a))
        = (.ok (.bool true), MemoryLru.renewed s n) :=
      outcome_map _ (MemoryLru.renew_resident hm.wellFormed hn (hkn.trans (hk.trans hb)))
    rw [hrenew]
    exact ⟨.inl rfl, mirrors_renew hm ho hI.good (hno r hr hk) hr hn hc (hk ▸ ht)⟩
  | updateMissing k n => exact hcom.elim
  | updated k n => exact hcom.elim
  | resize n w₁ hn hw₁ =>
    subst hw₁
    have hresize : MemoryLru.step s (memoryOp (.resize n))
        = (.ok .unit, MemoryLru.policy.shrink { s with maxSize := n } 0) :=
      outcome_map _ (MemoryPolicy.resize_eq MemoryLru.size_eq_zero hm.wellFormed hn)
    rw [hresize]
    exact ⟨.inl trivial, mirrors_shrink (hm.limit hn) ho 0⟩
  | query k hne =>
    obtain ⟨c, hq, hc⟩ := hm.query (P := MemoryLru.policy) rfl k
    have hquery : MemoryLru.step s (memoryOp (.query k)) = (.ok (.entry c), s) := outcome_map _ hq
    rw [hquery, show bindText k = k from hb]
    exact ⟨.inl hc, hm.tick 1, ho⟩
  | backup => exact hcom.elim

/-! ## Runs -/

theorem twins_start {M : UInt64} (hM : M ≠ 0) : Twins (Lru.start M) (MemoryLru.start M) := by
  have hrows : (Lru.start M).table.rows = [] := by
    rw [Lru.start_table hM]
    rfl
  have horder : Lru.policy.order (Lru.start M).table = [] := by
    rw [Policy.order, hrows]
    rfl
  refine ⟨⟨WellFormed.construct M (), (Lru.inv_start hM).sound, ?_, ?_, ?_⟩, ?_,
    Lru.inv_start hM, Lru.start_fails hM⟩
  · rw [hrows]
    exact List.Perm.refl _
  · rw [Lru.start_metaMem hM]
    rfl
  · rw [Lru.start, Lru.init_fresh hM]
    rfl
  · rw [Ordered, horder]
    rfl

theorem step_twins (w : Lru.World) (s : MemoryLru.State) (op : Lru.Op) (h : Twins w s)
    (ha : Admits w op) :
    Twins (Lru.step w op).2 (MemoryLru.step s (memoryOp op)).2 := by
  obtain ⟨-, h1, h2⟩ := step_answered h op ha
  obtain ⟨h3, h4⟩ := (Lru.step_inv w op ⟨h.inv, h.fails⟩ ha.1).1
  exact ⟨h1, h2, h3, h4⟩

/-- In every run of the two from empty, with the same calls, they hold the same after every call:
the same entries in the same order, the same two sizes, and the same vectors handed to
`remove_callback`; and they answer alike, but for a query of the empty key, which only one of them
rejects. -/
theorem lru_lockstep {M : UInt64} (hM : M ≠ 0) (ops : List Lru.Op)
    (hops : RunOk Lru.step Admits (Lru.start M) ops) :
    Lockstep (fun op o o' => Agree o o' ∨ NullQuery op o o') M ops := by
  intro before op after heq s w
  subst heq
  obtain ⟨hbefore, hop, -⟩ := runOk_append.1 hops
  rw [← List.map_id before] at hbefore
  have h : Twins w s := by
    have hrun := run_related id memoryOp (fun w s op h ha _ => step_twins w s op h ha) _ _ before
      (twins_start hM) hbefore (RunOk.top _ _)
    rwa [List.map_id] at hrun
  exact ⟨(step_answered h op hop).1, (step_twins w s op h hop).same⟩

/-- Two files fill the cache, the older one is renewed, and the third file evicts the other. -/
theorem lru_lockstep_ten :
    Lockstep (fun op o o' => Agree o o' ∨ NullQuery op o o') 10
      [.put ⟨[97], 5, 0, [], ⟨0⟩⟩, .put ⟨[98], 5, 0, [], ⟨0⟩⟩, .renew [97] (),
        .put ⟨[99], 4, 0, [], ⟨0⟩⟩, .resize 5, .query [99], .query []] :=
  lru_lockstep (by decide) _ (by decide)

/-- The in-memory class answers a query of the empty key, with an empty entry. -/
theorem query_null_differs :
    ¬ ∀ (M : UInt64) (ops : List Lru.Op), M ≠ 0 → RunOk Lru.step Admits (Lru.start M) ops →
      Lockstep (fun _ => Agree) M ops := by
  intro h
  have hstep := h 10 [.query []] (by decide) (by decide) [] (.query []) [] rfl
  exact hstep.1

end LruMirror

end XCache
