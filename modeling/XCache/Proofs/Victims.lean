import XCache.Proofs.Backends

/-!
# Victims and failing statements

`remove_cache` keeps its victims in a local vector and hands it to `remove_callback` when the loop
is done, and also before it throws an error of its own. When a delete statement throws, the vector
is lost (`removeCache_reported`). Nothing else in a call loses a victim, whatever the world it is
called in (`call_reported_iff`).
-/

namespace XCache

variable {κ τ ε α : Type} [Columns κ]

section Reported

/-- The keys of the rows that are gone. -/
def deletedKeys (w w' : World κ τ ε) : List Bytes :=
  w.table.keys.filter fun k => ! w'.table.keys.contains k

/-- The keys of the entries that `remove_callback` has been handed since. -/
def deliveredKeys (w w' : World κ τ ε) : List Bytes :=
  (w'.delivered.drop w.delivered.length).flatten.map Cache.key

/-- Every row that is gone has been handed to `remove_callback` exactly once, and nothing else. -/
def Reported (w w' : World κ τ ε) : Prop :=
  (deliveredKeys w w').Perm ((deletedKeys w w').map columnText)

variable {w v v' w' : World κ τ ε}

theorem Reported.congr (hk : w.table.keys = v.table.keys) (hd : w.delivered = v.delivered)
    (hk' : w'.table.keys = v'.table.keys) (hd' : w'.delivered = v'.delivered) :
    Reported w w' ↔ Reported v v' := by
  unfold Reported deletedKeys deliveredKeys
  rw [hk, hd, hk', hd']

theorem reported_refl (w : World κ τ ε) : Reported w w := by
  have h1 : deletedKeys w w = [] := List.filter_eq_nil_iff.2 fun k hk => by simpa using hk
  have h2 : deliveredKeys w w = [] := by
    rw [deliveredKeys, List.drop_length]
    rfl
  unfold Reported
  rw [h1, h2]
  exact List.Perm.nil

theorem perm_of_perm_append {K X Y : List Bytes} (hK : K.Nodup) (h : K.Perm (X ++ Y)) :
    (K.filter fun k => ! Y.contains k).Perm X := by
  have hdis := (List.nodup_append.1 (h.nodup_iff.1 hK)).2.2
  have hX : X.filter (fun k => ! Y.contains k) = X :=
    List.filter_eq_self.2 fun k hk => by simpa using fun hy => hdis k hk k hy rfl
  have hY : Y.filter (fun k => ! Y.contains k) = [] :=
    List.filter_eq_nil_iff.2 fun k hk => by simpa using hk
  have := h.filter fun k => ! Y.contains k
  rwa [List.filter_append, hX, hY, List.append_nil] at this

end Reported

namespace Policy

variable (P : Policy κ τ ε)

/-- The loop of `remove_cache` evicts `j` rows, and its next delete statement fails. -/
def Breaks (need : UInt64) : ℕ → World κ τ ε → Prop
  | 0, w => w.metaMem.cacheSize + need > w.metaMem.maxSize ∧ w.clock ∈ w.fails
  | j + 1, w => w.metaMem.cacheSize + need > w.metaMem.maxSize ∧ w.clock ∉ w.fails
      ∧ ∃ r, P.worst w.table = some r ∧ columnText r.key ≠ []
        ∧ columnUInt64 r.size ≤ w.metaMem.cacheSize ∧ Breaks need j (P.evictOne w r)

/-- The loop breaks after its first delete statement. -/
def Strands (w : World κ τ ε) (need : UInt64) : Prop := ∃ j, P.Breaks need (j + 1) w

variable {P} {w : World κ τ ε} {D : List (Row κ)} {need : UInt64}

theorem deletedKeys_evict (hD : D <+: P.order w.table) {w' : World κ τ ε}
    (ht : w'.table = (P.evict w D).table) : (deletedKeys w w').Perm (D.map Row.key) := by
  have hperm := (evict_perm hD).map Row.key
  rw [List.map_append] at hperm
  refine perm_of_perm_append w.table.keys_nodup ?_
  rw [ht]
  exact hperm

theorem reported_evict (hD : D <+: P.order w.table) :
    Reported w ((P.evict w D).deliver (D.map P.getRow)) := by
  have hdel : (deletedKeys w ((P.evict w D).deliver (D.map P.getRow))).Perm (D.map Row.key) :=
    deletedKeys_evict hD (deliver_table _)
  have hout : deliveredKeys w ((P.evict w D).deliver (D.map P.getRow))
      = (D.map Row.key).map columnText := by
    rw [deliveredKeys, deliver_delivered, evict_delivered, List.drop_left, List.map_map]
    rcases D with _ | ⟨r, D⟩
    · rfl
    · rw [if_neg (by simp), List.flatten_singleton, List.map_map]
      rfl
  unfold Reported
  rw [hout]
  exact (hdel.map columnText).symm

/-- Victims that are not delivered are not reported. -/
theorem reported_evict_iff (hD : D <+: P.order w.table) :
    Reported w (P.evict w D) ↔ D = [] := by
  have hdel : (deletedKeys w (P.evict w D)).Perm (D.map Row.key) := deletedKeys_evict hD rfl
  have hout : deliveredKeys w (P.evict w D) = [] := by
    rw [deliveredKeys, evict_delivered, List.drop_length]
    rfl
  unfold Reported
  rw [hout, List.nil_perm, List.map_eq_nil_iff]
  constructor
  · intro h
    rw [h, List.nil_perm, List.map_eq_nil_iff] at hdel
    exact hdel
  · rintro rfl
    exact hdel.eq_nil

/-- What has become of the victims when `remove_cache` is left. -/
theorem removeCache_reported (need : UInt64) (mark : Bytes) (w : World κ τ ε) :
    wp (P.removeCache need mark) (fun res w' => match res with
      | .ok _ => ¬ P.Strands w need ∧ Reported w w'
      | .error e => e = .sqlite .failed → (Reported w w' ↔ ¬ P.Strands w need)) w := by
  let I : List (Cache τ) → Bool → World κ τ ε → Prop := fun rem _ v =>
    ∃ D, D <+: P.order w.table ∧ v = P.evict w D ∧ rem = D.map P.getRow
      ∧ ∀ j, P.Breaks need j w ↔ ∃ i, j = D.length + i ∧ P.Breaks need i v
  refine wp_removeCache (I := I) ?_ ⟨[], List.nil_prefix, rfl, rfl, fun j => by simp⟩
  constructor
  case stop =>
    rintro rem fl v ⟨D, hD, rfl, rfl, hb⟩ hfit
    refine ⟨?_, reported_evict hD⟩
    rintro ⟨j, hj⟩
    obtain ⟨i, -, hi⟩ := (hb (j + 1)).1 hj
    cases i with
    | zero => exact hfit hi.1
    | succ i => exact hfit hi.1
  case fail =>
    rintro rem fl v ⟨D, hD, rfl, rfl, hb⟩ hover hfail -
    have hb' : ∀ j, P.Breaks need j w ↔ j = D.length := by
      intro j
      rw [hb j]
      constructor
      · rintro ⟨i, rfl, hi⟩
        cases i with
        | zero => rfl
        | succ i => exact absurd hfail hi.2.1
      · rintro rfl
        exact ⟨0, rfl, hover, hfail⟩
    have hframe : Reported w ((P.evict w D).tick 1) ↔ Reported w (P.evict w D) :=
      Reported.congr rfl rfl rfl rfl
    rw [hframe, reported_evict_iff hD]
    unfold Strands
    simp only [hb']
    constructor
    · rintro rfl ⟨j, hj⟩
      exact absurd hj (Nat.succ_ne_zero j)
    · intro h
      by_contra hne
      obtain ⟨n, hn⟩ := Nat.exists_eq_succ_of_ne_zero (mt List.length_eq_zero_iff.1 hne)
      exact h ⟨n, hn.symm⟩
  case noVictim =>
    rintro _ _ _ _ _ _ ⟨⟩
  case noKey =>
    rintro _ _ _ _ _ _ _ _ ⟨⟩
  case mismatch =>
    rintro _ _ _ _ _ _ _ _ ⟨⟩
  case step =>
    rintro rem fl v r ⟨D, hD, rfl, rfl, hb⟩ hover hok hr hkey hsize
    refine ⟨D ++ [r], ?_, evict_concat.symm, by simp, fun j => ?_⟩
    · rw [order_evict hD, order_some hr]
      exact ⟨_, List.append_assoc _ _ _⟩
    · rw [hb j, List.length_append, List.length_singleton]
      constructor
      · rintro ⟨i, rfl, hi⟩
        cases i with
        | zero => exact absurd hi.2 hok
        | succ i =>
          obtain ⟨-, -, r', hr', -, -, hi⟩ := hi
          obtain rfl := Option.some.inj (hr.symm.trans hr')
          exact ⟨i, by omega, hi⟩
      · rintro ⟨i, rfl, hi⟩
        exact ⟨i + 1, by omega, hover, hok, r, hr, hkey, hsize, hi⟩

/-- The row of `cache` grows, and the eviction that is to make room for it breaks. -/
def GrowthStrands (P : Policy κ τ ε) (w : World κ τ ε) (cache : Cache τ) (newSize : UInt64) :
    Prop :=
  newSize > cache.size ∧ P.Strands w (newSize - cache.size)

theorem updateContent_reported {v : World κ τ ε} {key : Bytes} {n : UInt64} {mid : Prop}
    (hmid : ¬ mid) (hv : Reported w v) :
    wp (updateContent key n) (fun res w' => match res with
      | .ok _ => True
      | .error e => e = .sqlite .failed → (Reported w w' ↔ ¬ mid)) v := by
  refine wp_writeTable.2 ⟨fun _ _ => ?_, fun _ => ⟨fun _ _ => trivial, fun _ => ?_⟩⟩
  · exact ⟨fun _ => hmid, fun _ => (Reported.congr rfl rfl rfl rfl).1 hv⟩
  · rintro ⟨⟩

/-- `update_size`, once the room is made. -/
theorem resize_row_reported {v : World κ τ ε} {cache : Cache τ} {newSize : UInt64} {mid : Prop}
    {aborted : Bool} (hmid : ¬ mid) (hv : Reported w v) :
    wp (if aborted then pure () else do
      let w ← get
      throwIf (¬ w.metaMem.cacheSize ≥ cache.size) (.algo .cacheSizeMismatch)
      modify fun w => { w with metaMem := { w.metaMem with
        cacheSize := w.metaMem.cacheSize - cache.size + newSize } }
      let changed ← updateContent cache.key newSize
      throwIf (changed = 0) (.algo .fatalLogic)) (fun res w' => res = .error (.sqlite .failed) →
        (Reported w w' ↔ ¬ mid)) v := by
  rw [wp_ite]
  refine ⟨fun _ => by rintro ⟨⟩, fun _ => ?_⟩
  rw [wp_bind, wp_get]
  simp only []
  rw [wp_bind, wp_throwIf]
  refine ⟨fun _ => by simp, fun _ => ?_⟩
  simp only []
  rw [wp_bind, wp_modify]
  simp only []
  rw [wp_bind]
  refine wp_mono (updateContent_reported hmid ((Reported.congr rfl rfl rfl rfl).1 hv)) ?_
  rintro (e | n) w' h
  · exact fun he => h (Except.error.inj he)
  · simp only []
    rw [wp_throwIf]
    exact ⟨fun _ => by simp, fun _ => by simp⟩

theorem updateSize_reported (w : World κ τ ε) (cache : Cache τ) (newSize : UInt64) :
    wp (P.updateSize cache newSize) (fun res w' => res = .error (.sqlite .failed) →
      (Reported w w' ↔ ¬ P.GrowthStrands w cache newSize)) w := by
  unfold updateSize
  rw [wp_ite]
  refine ⟨fun _ => by rintro ⟨⟩, fun _ => ?_⟩
  rw [wp_bind, wp_ite]
  constructor
  · intro hgrow
    refine wp_mono (removeCache_reported (newSize - cache.size) cache.key w) ?_
    rintro (e | aborted) v h
    · intro he
      rw [h (Except.error.inj he)]
      exact not_congr ⟨fun hs => ⟨hgrow, hs⟩, And.right⟩
    · exact resize_row_reported (fun hs => h.1 hs.2) h.2
  · intro hgrow
    exact resize_row_reported (fun hs => hgrow hs.1) (reported_refl w)

end Policy

namespace Algo

variable (A : Algo κ τ ε α)

/-- The call's eviction loop is left by a delete statement that fails, and not by the first. -/
def Midway (w : World κ τ ε) : Op τ α → Prop
  | .put c =>
    let entry := A.getSingle (w.table.find (bindText c.key))
    Accepts w c.key c.size ∧ w.clock ∉ w.fails
      ∧ (entry.key = [] ∧ A.Strands (w.tick 1) c.size
        ∨ entry.key ≠ [] ∧ (outcome (A.renew entry.key (A.arg c)) (w.tick 1)).1 = .ok true
          ∧ A.GrowthStrands (outcome (A.renew entry.key (A.arg c)) (w.tick 1)).2 entry c.size)
  | .update k n =>
    let entry := A.getSingle (w.table.find (bindText k))
    Accepts w k n ∧ w.clock ∉ w.fails ∧ entry.key ≠ []
      ∧ A.GrowthStrands (w.tick 1) entry n
  | .resize n => n ≠ 0 ∧ A.Strands { w with metaMem := { w.metaMem with maxSize := n } } 0
  | .renew _ _ => False
  | .query _ => False
  | .backup => False

variable {A} {w : World κ τ ε}

theorem not_midway_of_fails {op : Op τ α} (hf : w.clock ∈ w.fails) (hop : ∀ n, op ≠ .resize n) :
    ¬ A.Midway w op := by
  cases op with
  | put c => exact fun h => h.2.1 hf
  | update k n => exact fun h => h.2.1 hf
  | resize n => exact absurd rfl (hop n)
  | renew _ _ => exact id
  | query _ => exact id
  | backup => exact id

theorem insert_reported {c : Cache τ} (hc : Accepts w c.key c.size) (hok : w.clock ∉ w.fails)
    (h0 : (A.getSingle (w.table.find (bindText c.key))).key = []) :
    wp (do
      let _ ← A.removeCache c.size []
      let w ← get
      let tmp : Cache τ := { c with fields := A.stamp w.metaMem.extra c.fields }
      let inserted ← A.insert tmp
      throwIf (inserted = 0) (.algo .fatalLogic)
      modify fun w => { w with metaMem := { w.metaMem with
        extra := A.inserted w.metaMem.extra, cacheSize := w.metaMem.cacheSize + tmp.size } }
      return true) (fun res w' => res = .error (.sqlite .failed) →
        (Reported w w' ↔ ¬ A.Midway w (.put c))) (w.tick 1) := by
  have hmid : A.Midway w (.put c) ↔ A.Strands (w.tick 1) c.size := by
    refine ⟨fun h => ?_, fun h => ⟨hc, hok, .inl ⟨h0, h⟩⟩⟩
    rcases h.2.2 with h | h
    · exact h.2
    · exact absurd h0 h.1
  rw [hmid, wp_bind]
  refine wp_mono (Policy.removeCache_reported c.size [] (w.tick 1)) ?_
  rintro (e | fl) v h
  · intro he
    rw [← h (Except.error.inj he)]
    exact Reported.congr rfl rfl rfl rfl
  · simp only []
    rw [wp_bind, wp_get]
    simp only []
    rw [wp_bind]
    refine wp_writeTable.2 ⟨fun _ _ => ?_, fun _ => ⟨fun t _ => ?_, fun _ => by simp⟩⟩
    · exact ⟨fun _ => h.1, fun _ => (Reported.congr rfl rfl rfl rfl).1 h.2⟩
    · simp only []
      rw [wp_bind, wp_throwIf]
      exact ⟨fun _ => by simp, fun _ => by rintro ⟨⟩⟩

theorem renew_reported {c : Cache τ} (hc : Accepts w c.key c.size) (hok : w.clock ∉ w.fails)
    (hr : ∀ k a (w : World κ τ ε), wp (A.renew k a)
      (fun _ w' => w'.table.keys = w.table.keys ∧ w'.delivered = w.delivered) w)
    (h0 : (A.getSingle (w.table.find (bindText c.key))).key ≠ []) :
    wp (do
      let renewed ← A.renew (A.getSingle (w.table.find (bindText c.key))).key (A.arg c)
      throwIf (renewed = false) (.algo .fatalLogic)
      if c.size > (A.getSingle (w.table.find (bindText c.key))).size then do
        A.updateSize (A.getSingle (w.table.find (bindText c.key))) c.size
        return false
      else return false) (fun res w' => res = .error (.sqlite .failed) →
        (Reported w w' ↔ ¬ A.Midway w (.put c))) (w.tick 1) := by
  generalize hentry : A.getSingle (w.table.find (bindText c.key)) = entry at h0 ⊢
  obtain ⟨hkeys, hdel⟩ := hr entry.key (A.arg c) (w.tick 1)
  rcases ho : outcome (A.renew entry.key (A.arg c)) (w.tick 1) with ⟨res, v⟩
  have hmid : A.Midway w (.put c) ↔ res = .ok true ∧ A.GrowthStrands v entry c.size := by
    unfold Midway
    simp only [hentry, ho]
    refine ⟨fun h => ?_, fun h => ⟨hc, hok, .inr ⟨h0, h.1, h.2⟩⟩⟩
    rcases h.2.2 with h | h
    · exact absurd h.1 h0
    · exact h.2
  rw [ho] at hkeys hdel
  rw [hmid]
  rcases res with e | renewed
  · rw [wp_bind_error ho]
    intro _
    refine ⟨by rintro _ ⟨⟨⟩, -⟩, fun _ => ?_⟩
    exact (Reported.congr rfl rfl hkeys.symm hdel.symm).1 (reported_refl w)
  · rw [wp_bind_ok ho, wp_bind, wp_throwIf]
    refine ⟨fun _ => by simp, fun hne => ?_⟩
    simp only []
    rw [wp_ite]
    refine ⟨fun _ => ?_, fun _ => by rintro ⟨⟩⟩
    rw [wp_bind]
    refine wp_mono (Policy.updateSize_reported v entry c.size) ?_
    rintro (e | u) w' h
    · intro he
      have hframe : Reported w w' ↔ Reported v w' :=
        Reported.congr hkeys.symm hdel.symm rfl rfl
      rw [hframe, h (by rw [Except.error.inj he])]
      refine not_congr ⟨fun hs => ⟨?_, hs⟩, And.right⟩
      rw [Bool.not_eq_false] at hne
      rw [hne]
    · rintro ⟨⟩

section Call

variable (hr : ∀ k a (w : World κ τ ε), wp (A.renew k a)
  (fun _ w' => w'.table.keys = w.table.keys ∧ w'.delivered = w.delivered) w)

include hr

theorem put_reported (w : World κ τ ε) (c : Cache τ) :
    wp (A.put c) (fun res w' => res = .error (.sqlite .failed) →
      (Reported w w' ↔ ¬ A.Midway w (.put c))) w := by
  unfold put
  rw [wp_bind, wp_throwIf]
  refine ⟨fun _ => by simp, fun hk => ?_⟩
  simp only []
  rw [wp_bind, wp_get]
  simp only []
  rw [wp_bind, wp_throwIf]
  refine ⟨fun _ => by simp, fun hz => ?_⟩
  have hc : Accepts w c.key c.size := accepts_of_checks hk hz
  simp only []
  rw [wp_bind, Policy.wp_querySingle]
  refine ⟨fun hf _ => ?_, fun hok => ?_⟩
  · exact ⟨fun _ => not_midway_of_fails hf (by rintro n ⟨⟩), fun _ => reported_refl w⟩
  · simp only []
    rw [wp_ite]
    exact ⟨fun h0 => insert_reported hc hok h0, fun h0 => renew_reported hc hok hr h0⟩

omit hr in
theorem update_reported (w : World κ τ ε) (k : Bytes) (n : UInt64) :
    wp (A.update k n) (fun res w' => res = .error (.sqlite .failed) →
      (Reported w w' ↔ ¬ A.Midway w (.update k n))) w := by
  unfold Policy.update
  rw [wp_bind, wp_throwIf]
  refine ⟨fun _ => by simp, fun hk => ?_⟩
  simp only []
  rw [wp_bind, wp_get]
  simp only []
  rw [wp_bind, wp_throwIf]
  refine ⟨fun _ => by simp, fun hz => ?_⟩
  have hc : Accepts w k n := accepts_of_checks hk hz
  simp only []
  rw [wp_bind, Policy.wp_querySingle]
  refine ⟨fun hf _ => ?_, fun hok => ?_⟩
  · exact ⟨fun _ => not_midway_of_fails hf (by rintro n ⟨⟩), fun _ => reported_refl w⟩
  · simp only []
    rw [wp_ite]
    refine ⟨fun h0 => ?_, fun _ => by rintro ⟨⟩⟩
    rw [wp_bind]
    refine wp_mono (Policy.updateSize_reported (w.tick 1) _ n) ?_
    rintro (e | u) w' h
    · intro he
      have hframe : Reported w w' ↔ Reported (w.tick 1) w' := Reported.congr rfl rfl rfl rfl
      rw [hframe, h (by rw [Except.error.inj he])]
      exact not_congr ⟨fun hs => ⟨hc, hok, h0, hs⟩, fun hs => hs.2.2.2⟩
    · rintro ⟨⟩

omit hr in
theorem resize_reported (w : World κ τ ε) (n : UInt64) :
    wp (A.resize n) (fun res w' => res = .error (.sqlite .failed) →
      (Reported w w' ↔ ¬ A.Midway w (.resize n))) w := by
  unfold Policy.resize
  rw [wp_bind, wp_throwIf]
  refine ⟨fun _ => by simp, fun hn => ?_⟩
  simp only []
  rw [wp_bind, wp_modify]
  simp only []
  rw [wp_bind]
  refine wp_mono (Policy.removeCache_reported 0 [] _) ?_
  rintro (e | fl) w' h
  · intro he
    have hframe : Reported w w'
        ↔ Reported { w with metaMem := { w.metaMem with maxSize := n } } w' :=
      Reported.congr rfl rfl rfl rfl
    rw [hframe, h (Except.error.inj he)]
    exact not_congr ⟨fun hs => ⟨hn, hs⟩, And.right⟩
  · rintro ⟨⟩

/-- A call that a failing statement leaves has reported its victims unless the statement broke its
eviction loop midway. -/
theorem call_reported_iff (w : World κ τ ε) (op : Op τ α)
    (hfail : (outcome (A.call op) w).1 = .error (.sqlite .failed)) :
    Reported w (outcome (A.call op) w).2 ↔ ¬ A.Midway w op := by
  have h : wp (A.call op) (fun res w' => res = .error (.sqlite .failed) →
      (Reported w w' ↔ ¬ A.Midway w op)) w := by
    have hmap : ∀ {β : Type} {x : Call κ τ ε β} {f : β → Ret τ} {Q : World κ τ ε → Prop},
        wp x (fun res w' => res = .error (.sqlite .failed) → Q w') w →
          wp (f <$> x) (fun res w' => res = .error (.sqlite .failed) → Q w') w := by
      intro β x f Q hx
      refine wp_map.2 (wp_mono hx ?_)
      rintro (e | b) w' h he
      · exact h (by rw [Except.error.inj he])
      · cases he
    cases op with
    | put c => exact hmap (put_reported hr w c)
    | update k n => exact hmap (update_reported w k n)
    | resize n => exact hmap (resize_reported w n)
    | renew k a =>
      refine hmap (wp_mono (hr k a w) ?_)
      rintro res w' ⟨hk, hd⟩ -
      exact ⟨fun _ => id, fun _ => (Reported.congr rfl rfl hk.symm hd.symm).1 (reported_refl w)⟩
    | query k =>
      refine hmap ?_
      rw [Policy.query, wp_bind, wp_throwIf]
      refine ⟨fun _ => by simp, fun _ => ?_⟩
      simp only []
      rw [Policy.wp_querySingle]
      exact ⟨fun _ _ => ⟨fun _ => id, fun _ => reported_refl w⟩, fun _ => by simp⟩
    | backup =>
      refine hmap ?_
      rw [Policy.backup, wp_bind, wp_get]
      simp only []
      exact wp_statement.2
        ⟨fun _ _ => ⟨fun _ => id, fun _ => reported_refl w⟩, fun _ => by rintro ⟨⟩⟩
  exact h hfail

end Call

end Algo

/-! ## The two classes -/

theorem Lru.renew_keeps (key : Bytes) (w : Lru.World) :
    wp (Lru.renew key)
      (fun _ w' => w'.table.keys = w.table.keys ∧ w'.delivered = w.delivered) w := by
  unfold Lru.renew
  rw [wp_bind, wp_throwIf]
  refine ⟨fun _ => ⟨rfl, rfl⟩, fun _ => ?_⟩
  simp only []
  rw [wp_bind, wp_get]
  simp only []
  rw [wp_bind, Lru.updateLruSeq, wp_writeTable]
  refine ⟨fun _ => ⟨rfl, rfl⟩, fun _ => ⟨fun t ht => ?_, fun _ => ⟨rfl, rfl⟩⟩⟩
  have hk : t.keys = w.table.keys := Table.update_keys (by intro r; rfl) ht
  simp only []
  rw [wp_ite]
  exact ⟨fun _ => ⟨hk, rfl⟩, fun _ => ⟨hk, rfl⟩⟩

theorem Lfuda.renew_keeps (key : Bytes) (timestamp : UInt64) (w : Lfuda.World) :
    wp (Lfuda.renew key timestamp)
      (fun _ w' => w'.table.keys = w.table.keys ∧ w'.delivered = w.delivered) w := by
  unfold Lfuda.renew
  rw [wp_bind, wp_throwIf]
  refine ⟨fun _ => ⟨rfl, rfl⟩, fun _ => ?_⟩
  simp only []
  rw [wp_bind, Lfuda.queryLfudaTime, wp_readWorld]
  refine ⟨fun _ => ⟨rfl, rfl⟩, fun _ => ?_⟩
  simp only []
  rw [wp_ite]
  refine ⟨fun _ => ?_, fun _ => ⟨rfl, rfl⟩⟩
  rw [wp_bind, wp_get]
  simp only []
  rw [wp_bind, Lfuda.updateLfudaTfe, wp_writeTable]
  refine ⟨fun _ => ⟨rfl, rfl⟩, fun _ => ⟨fun t ht => ?_, fun _ => ⟨rfl, rfl⟩⟩⟩
  have hk : t.keys = w.table.keys := Table.update_keys (by intro r; rfl) ht
  simp only []
  rw [wp_bind, wp_throwIf]
  exact ⟨fun _ => ⟨hk, rfl⟩, fun _ => ⟨hk, rfl⟩⟩

/-- In both classes, in every world: a call that a failing statement leaves has handed every row it
deleted to `remove_callback` exactly once, unless that statement is an eviction's delete and not
the first of its loop. -/
theorem victims_reported_iff (w : Lru.World) (op : Lru.Op) (v : Lfuda.World)
    (i : Lfuda.Resolver × Lfuda.Op) :
    ((Lru.step w op).1 = .error (.sqlite .failed) →
      (Reported w (Lru.step w op).2 ↔ ¬ Lru.algo.Midway w op))
    ∧ ((Lfuda.step v i).1 = .error (.sqlite .failed) →
      (Reported v (Lfuda.step v i).2 ↔ ¬ (Lfuda.algo i.1).Midway v i.2)) := by
  constructor
  · rw [Lru.step, Lru.call_eq]
    exact Algo.call_reported_iff (fun k _ => Lru.renew_keeps k) w op
  · rw [Lfuda.step, Lfuda.call_eq]
    exact Algo.call_reported_iff Lfuda.renew_keeps v i.2

/-- The insertion fails that a file has been evicted for. -/
theorem victims_reported_iff_ten :
    let w := ((run Lru.step (Lru.start 10) [.put ⟨[97], 5, 0, [], ⟨0⟩⟩]).2).faulty [6]
    let op : Lru.Op := .put ⟨[98], 6, 0, [], ⟨0⟩⟩
    let v := ((run Lfuda.step (Lfuda.start 10)
      [(.first, .put ⟨[97], 5, 0, [], ⟨1, 0, 0⟩⟩)]).2).faulty [6]
    let i : Lfuda.Resolver × Lfuda.Op := (.first, .put ⟨[98], 6, 0, [], ⟨2, 0, 0⟩⟩)
    (Reported w (Lru.step w op).2 ↔ ¬ Lru.algo.Midway w op)
      ∧ (Reported v (Lfuda.step v i).2 ↔ ¬ (Lfuda.algo i.1).Midway v i.2) := by
  intro w op v i
  exact (victims_reported_iff w op v i).imp (fun h => h (by decide)) fun h => h (by decide)

/-- Two files are to make room for a third, and the second delete fails: the first is gone and
nobody has been told. -/
theorem victim_lost :
    (let w := ((run Lru.step (Lru.start 10)
        [.put ⟨[97], 5, 0, [], ⟨0⟩⟩, .put ⟨[98], 5, 0, [], ⟨0⟩⟩]).2).faulty [8]
      let w' := (Lru.step w (.put ⟨[99], 10, 0, [], ⟨0⟩⟩)).2
      (Lru.step w (.put ⟨[99], 10, 0, [], ⟨0⟩⟩)).1 = .error (.sqlite .failed)
        ∧ deletedKeys w w' = [[97]] ∧ deliveredKeys w w' = [] ∧ ¬ Reported w w')
    ∧ let w := ((run Lfuda.step (Lfuda.start 10)
        [(.first, .put ⟨[97], 5, 0, [], ⟨1, 0, 0⟩⟩),
          (.first, .put ⟨[98], 5, 0, [], ⟨2, 0, 0⟩⟩)]).2).faulty [8]
      let i : Lfuda.Resolver × Lfuda.Op := (.first, .put ⟨[99], 10, 0, [], ⟨3, 0, 0⟩⟩)
      let w' := (Lfuda.step w i).2
      (Lfuda.step w i).1 = .error (.sqlite .failed)
        ∧ deletedKeys w w' = [[97]] ∧ deliveredKeys w w' = [] ∧ ¬ Reported w w' := by
  unfold Reported
  decide

end XCache
