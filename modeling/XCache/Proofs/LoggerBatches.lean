import XCache.Proofs.LoggerCalls
import XCache.Proofs.LoggerThreads

/-!
# Batches stay together

While a thread has `logger_lock` alone, no other is between the two ends of a `put_*_impl`, so what
is handed over in the meantime comes out of its batch, and follows what has been handed over of it
already (`Progress`). When `submit` returns, the batch has been handed over in one stretch
(`submits_contiguous`).
-/

namespace XCache

namespace Logger.Threads

variable {cfg : Logger.State} {s s' : State} {t c i : ℕ} {p q : Phase}

/-! ## What a batch is handed over as -/

/-- What the sinks are handed of these messages. -/
def texts (cfg : Logger.State) (zone : ℤ) (es : List Entry) : List Handed :=
  es.flatMap fun e => (sinksFor cfg e.2).map fun sink => ⟨sink, e.2, zoneText zone ++ e.1⟩

theorem texts_append (zone : ℤ) (es es' : List Entry) :
    texts cfg zone (es ++ es') = texts cfg zone es ++ texts cfg zone es' :=
  List.flatMap_append

/-- One message more is handed to the console, and then to the files. -/
theorem texts_concat (zone : ℤ) (es : List Entry) (msg : Text) (level : Level) :
    texts cfg zone (es ++ [(msg, level)])
      = texts cfg zone es ++ given (consoleSink cfg level) level (zoneText zone ++ msg)
        ++ given (filesSink cfg level) level (zoneText zone ++ msg) := by
  rw [texts_append, List.append_assoc]
  congr 1
  rw [texts, List.flatMap_cons, List.flatMap_nil, List.append_nil, sinksFor, List.map_append]
  rfl

/-! ## Submits under way -/

/-- The `submit` a thread is in, and its `MultiLog`. -/
def Phase.call : Phase → Option (ℕ × ℕ)
  | .locking c i | .looping c i | .filing c i _ _ | .popping c i => some (c, i)
  | .outside | .sharing _ _ _ | .putting _ _ _ | .putFiling _ _ | .unsharing => none

theorem Phase.multi_of_call (hp : p.call = some (c, i)) : p.multi = some i := by
  cases p <;> simp_all [Phase.call, Phase.multi]

/-- What has been handed over in `submit` `c`, when `done` has been popped and `logs` is left. -/
def Progress (cfg : Logger.State) (hands : List (Option ℕ × Handed)) (c : ℕ) (zone : ℤ)
    (done logs : List Entry) : Phase → Prop
  | .locking _ _ => done = [] ∧ ∀ e ∈ hands, e.1 ≠ some c
  | .looping _ _ => Opened hands (some c) (texts cfg zone done)
  | .filing _ _ level text => ∃ msg rest, logs = (msg, level) :: rest
      ∧ text = zoneText zone ++ msg
      ∧ Opened hands (some c)
          (texts cfg zone done ++ given (consoleSink cfg level) level text)
  | .popping _ _ => ∃ e rest, logs = e :: rest
      ∧ Opened hands (some c) (texts cfg zone (done ++ [e]))
  | .outside | .sharing _ _ _ | .putting _ _ _ | .putFiling _ _ | .unsharing => False

theorem tagged_ne {d : Option ℕ} (hd : d ≠ some c) (hs : List Handed) :
    ∀ e ∈ hs.map (Prod.mk d), e.1 ≠ some c := by
  intro e he
  obtain ⟨x, -, rfl⟩ := List.mem_map.1 he
  exact hd

/-- Others hand something over only while this thread waits for the lock. -/
theorem Progress.append {hands : List (Option ℕ × Handed)} {zone : ℤ} {done logs : List Entry}
    (h : Progress cfg hands c zone done logs p) {d : Option ℕ} (hd : d ≠ some c)
    {hs : List Handed} (howns : hs ≠ [] → p.owns = false) :
    Progress cfg (hands ++ hs.map (Prod.mk d)) c zone done logs p := by
  by_cases hnil : hs = []
  · subst hnil
    rwa [List.map_nil, List.append_nil]
  · cases p with
    | locking c' i' =>
      refine ⟨h.1, fun e he => ?_⟩
      rcases List.mem_append.1 he with he | he
      · exact h.2 e he
      · exact tagged_ne hd hs e he
    | looping | filing | popping => exact absurd (howns hnil) (by simp [Phase.owns])
    | outside | sharing | putting | putFiling | unsharing => exact h.elim

/-- A thread in `submit` `c` of `MultiLog` `i` has handed over what it has taken out. -/
structure Serving (cfg : Logger.State) (s : State) (c i : ℕ) (p : Phase) (b : Submit)
    (done : List Entry) : Prop where
  call : s.submits[c]? = some b
  pending : b.returned = false
  multi : b.multi = i
  zone : (s.logger.multis[i]?).map MultiLog.zone = some b.zone
  batch : b.batch = done ++ s.logs i
  progress : Progress cfg s.hands c b.zone done (s.logs i) p

theorem Serving.frame {b : Submit} {done : List Entry} (h : Serving cfg s c i p b done)
    {d : Option ℕ} (hs : List Handed) (hcall : s'.submits[c]? = s.submits[c]?)
    (hmulti : s'.logger.multis[i]? = s.logger.multis[i]?)
    (hhands : s'.hands = s.hands ++ hs.map (Prod.mk d)) (hd : d ≠ some c)
    (howns : hs ≠ [] → p.owns = false) : Serving cfg s' c i p b done := by
  have hlogs : s'.logs i = s.logs i := by rw [State.logs, hmulti]; rfl
  exact
    { call := hcall.trans h.call
      pending := h.pending
      multi := h.multi
      zone := by rw [hmulti]; exact h.zone
      batch := by rw [hlogs]; exact h.batch
      progress := by rw [hlogs, hhands]; exact h.progress.append hd howns }

/-- Nothing that the thread has to do with has changed. -/
theorem Serving.same {b : Submit} {done : List Entry} (h : Serving cfg s c i p b done)
    (hcall : s'.submits[c]? = s.submits[c]?)
    (hmulti : s'.logger.multis[i]? = s.logger.multis[i]?) (hhands : s'.hands = s.hands) :
    Serving cfg s' c i p b done :=
  h.frame (d := none) [] hcall hmulti (hhands.trans (List.append_nil _).symm) nofun
    fun hne => absurd rfl hne

/-- What is kept of the calls of `submit`. -/
structure Batched (cfg : Logger.State) (s : State) : Prop where
  /-- Every thread in one is as far as it says. -/
  serving : ∀ (t : ℕ) (p : Phase) (c i : ℕ), s.threads[t]? = some p → p.call = some (c, i) →
    ∃ b done, Serving cfg s c i p b done
  /-- No other thread is in one of the same `MultiLog`. -/
  alone : ∀ (t : ℕ) (p : Phase) (c t' : ℕ) (p' : Phase) (c' i : ℕ),
    s.threads[t]? = some p → p.call = some (c, i) →
    s.threads[t']? = some p' → p'.call = some (c', i) → t = t'
  /-- Some thread is in each that has not returned. -/
  pending : ∀ (c : ℕ) (b : Submit), s.submits[c]? = some b → b.returned = false →
    ∃ (t : ℕ) (p : Phase), s.threads[t]? = some p ∧ p.call = some (c, b.multi)
  returned : ∀ (c : ℕ) (b : Submit), s.submits[c]? = some b → b.returned = true →
    Stretch s.hands (some c) (texts cfg b.zone b.batch)
  fresh : ∀ e ∈ s.hands, ∀ c, e.1 = some c → c < s.submits.length
  batch : ∀ (c : ℕ) (b : Submit), s.submits[c]? = some b → b.putBefore = b.goneBefore ++ b.batch

theorem start_batched (n : ℕ) (cfg' : Logger.State) : Batched cfg (start n cfg') where
  serving t p c i ht hp := by
    rw [List.eq_of_mem_replicate (List.mem_of_getElem? ht)] at hp
    cases hp
  alone t p c t' p' c' i ht hp := by
    rw [List.eq_of_mem_replicate (List.mem_of_getElem? ht)] at hp
    cases hp
  pending c b hb := by cases hb
  returned c b hb := by cases hb
  fresh e he := by cases he
  batch c b hb := by cases hb

namespace Batched

variable (h : Batched cfg s)
include h

/-- Two threads in one `submit` are the same. -/
theorem same_call {t' i' : ℕ} (ht : s.threads[t]? = some p) (hp : p.call = some (c, i))
    (ht' : s.threads[t']? = some q) (hq : q.call = some (c, i')) : t = t' := by
  obtain ⟨b, done, hs⟩ := h.serving t p c i ht hp
  obtain ⟨b', done', hs'⟩ := h.serving t' q c i' ht' hq
  have hb : b = b' := Option.some.inj (hs.call.symm.trans hs'.call)
  have hi : i = i' := by rw [← hs.multi, ← hs'.multi, hb]
  subst hi
  exact h.alone t p c t' q c i ht hp ht' hq

/-- Nothing changes for the threads in a `submit`. -/
theorem frame (hs : List Handed)
    (hthreads : ∀ (u : ℕ) (r : Phase), r.call ≠ none →
      (s'.threads[u]? = some r ↔ s.threads[u]? = some r))
    (hsubmits : s'.submits = s.submits) (hhands : s'.hands = s.hands ++ hs.map (Prod.mk none))
    (howns : hs ≠ [] → ∀ (u : ℕ) (r : Phase), s.threads[u]? = some r → r.owns = false)
    (hmultis : ∀ (u : ℕ) (r : Phase) (c i : ℕ), s.threads[u]? = some r → r.call = some (c, i) →
      s'.logger.multis[i]? = s.logger.multis[i]?) : Batched cfg s' := by
  have hthreads' : ∀ {u : ℕ} {r : Phase} {c i : ℕ}, s'.threads[u]? = some r →
      r.call = some (c, i) → s.threads[u]? = some r := fun hu hr =>
    (hthreads _ _ (by simp [hr])).1 hu
  have htag : ∀ c, ∀ e ∈ hs.map (Prod.mk (none : Option ℕ)), e.1 ≠ some c :=
    fun c => tagged_ne (Option.some_ne_none c).symm hs
  exact
    { serving := fun u r c i hu hr => by
        have hu' := hthreads' hu hr
        obtain ⟨b, done, hserve⟩ := h.serving u r c i hu' hr
        exact ⟨b, done, hserve.frame hs (by rw [hsubmits]) (hmultis u r c i hu' hr) hhands
          (Option.some_ne_none c).symm fun hne => howns hne u r hu'⟩
      alone := fun u r c u' r' c' i hu hr hu' hr' =>
        h.alone u r c u' r' c' i (hthreads' hu hr) hr (hthreads' hu' hr') hr'
      pending := fun c b hb hret => by
        rw [hsubmits] at hb
        obtain ⟨u, r, hu, hr⟩ := h.pending c b hb hret
        exact ⟨u, r, (hthreads u r (by simp [hr])).2 hu, hr⟩
      returned := fun c b hb hret => by
        rw [hsubmits] at hb
        rw [hhands]
        exact (h.returned c b hb hret).append (htag c)
      fresh := fun e he c hc => by
        rw [hhands] at he
        rw [hsubmits]
        rcases List.mem_append.1 he with he | he
        · exact h.fresh e he c hc
        · exact absurd hc (htag c e he)
      batch := fun c b hb => by
        rw [hsubmits] at hb
        exact h.batch c b hb }

/-- A thread in a `submit` goes on in it. -/
theorem advance (hs : List Handed) (hlock : Locked s) (ht : s.threads[t]? = some p)
    (hp : p.call = some (c, i)) (hthreads : s'.threads = s.threads.set t q)
    (hq : q.call = some (c, i)) (hsubmits : s'.submits = s.submits)
    (hhands : s'.hands = s.hands ++ hs.map (Prod.mk (some c)))
    (howns : hs ≠ [] → p.owns = true)
    (hmultis : ∀ j, j ≠ i → s'.logger.multis[j]? = s.logger.multis[j]?)
    (hserve : ∀ b done, Serving cfg s c i p b done → ∃ done', Serving cfg s' c i q b done') :
    Batched cfg s' := by
  obtain ⟨b, done, hb⟩ := h.serving t p c i ht hp
  have hmove : ∀ {u : ℕ} {r : Phase}, s'.threads[u]? = some r →
      (u = t ∧ r = q) ∨ (u ≠ t ∧ s.threads[u]? = some r) := by
    intro u r hu
    rw [hthreads] at hu
    exact getElem?_move hu
  have hne_call : ∀ {c' : ℕ}, c' ≠ c → (some c : Option ℕ) ≠ some c' :=
    fun hne heq => hne (Option.some.inj heq).symm
  exact
    { serving := fun u r c' i' hu hr => by
        obtain ⟨rfl, rfl⟩ | ⟨hne, hu⟩ := hmove hu
        · rw [hq] at hr
          cases hr
          obtain ⟨done', hs'⟩ := hserve b done hb
          exact ⟨b, done', hs'⟩
        · obtain ⟨b', done', hs'⟩ := h.serving u r c' i' hu hr
          have hc : c' ≠ c := by
            rintro rfl
            exact hne (h.same_call hu hr ht hp)
          have hi : i' ≠ i := by
            rintro rfl
            exact hne (h.alone u r c' t p c i' hu hr ht hp)
          refine ⟨b', done',
            hs'.frame hs (by rw [hsubmits]) (hmultis i' hi) hhands (hne_call hc) fun hsome => ?_⟩
          exact Bool.eq_false_iff.2 fun hr' => hne ((hlock.only ht (howns hsome) hu).2 hr')
      alone := fun u r c' u' r' c'' i' hu hr hu' hr' => by
        obtain ⟨rfl, rfl⟩ | ⟨hne, hu⟩ := hmove hu <;> obtain ⟨rfl, rfl⟩ | ⟨hne', hu'⟩ := hmove hu'
        · rfl
        · rw [hq] at hr
          cases hr
          exact h.alone u p c u' r' c'' i ht hp hu' hr'
        · rw [hq] at hr'
          cases hr'
          exact h.alone u r c' u' p c i hu hr ht hp
        · exact h.alone u r c' u' r' c'' i' hu hr hu' hr'
      pending := fun c' b' hb' hret => by
        rw [hsubmits] at hb'
        obtain ⟨u, r, hu, hr⟩ := h.pending c' b' hb' hret
        rw [hthreads]
        by_cases hut : u = t
        · subst hut
          rw [ht] at hu
          obtain rfl := Option.some.inj hu
          exact ⟨u, q, List.getElem?_set_self (List.getElem?_eq_some_iff.1 ht).1,
            by rw [hq, ← hp, hr]⟩
        · exact ⟨u, r, (List.getElem?_set_ne (Ne.symm hut)).trans hu, hr⟩
      returned := fun c' b' hb' hret => by
        rw [hsubmits] at hb'
        rw [hhands]
        refine (h.returned c' b' hb' hret).append (tagged_ne (hne_call ?_) hs)
        rintro rfl
        rw [Option.some.inj (hb'.symm.trans hb.call), hb.pending] at hret
        cases hret
      fresh := fun e he c' hc => by
        rw [hhands] at he
        rw [hsubmits]
        rcases List.mem_append.1 he with he | he
        · exact h.fresh e he c' hc
        · obtain ⟨x, -, rfl⟩ := List.mem_map.1 he
          cases hc
          exact (List.getElem?_eq_some_iff.1 hb.call).1
      batch := fun c' b' hb' => by
        rw [hsubmits] at hb'
        exact h.batch c' b' hb' }

section Called

variable {zone : ℤ} {logs : List Entry} {threads : List Phase} {returned : Bool}

omit h in
theorem submit_called {b : Submit}
    (hb : (s.called i zone logs threads returned).submits[c]? = some b) :
    s.submits[c]? = some b
      ∨ c = s.submits.length ∧ b = ⟨i, zone, logs, s.puts i, s.gone i, returned⟩ := by
  rcases Nat.lt_trichotomy c s.submits.length with hc | rfl | hc
  · exact .inl ((List.getElem?_append_left hc).symm.trans hb)
  · exact .inr ⟨rfl, (Option.some.inj (List.getElem?_concat_length.symm.trans hb)).symm⟩
  · have hlt : c < (s.submits ++ [_]).length := (List.getElem?_eq_some_iff.1 hb).1
    rw [List.length_append, List.length_singleton] at hlt
    exact absurd hc (Nat.not_lt.2 (Nat.lt_succ_iff.1 hlt))

theorem fresh_length : ∀ e ∈ s.hands, e.1 ≠ some s.submits.length :=
  fun e he heq => (h.fresh e he _ heq).false

theorem called_fresh : ∀ e ∈ s.hands, ∀ c, e.1 = some c →
    c < (s.called i zone logs threads returned).submits.length := by
  intro e he c hc
  have hlt := h.fresh e he c hc
  show c < (s.submits ++ [_]).length
  rw [List.length_append]
  omega

theorem called_batch (hqueued : Queued s) (hlogs : s.logs i = logs) {b : Submit}
    (hb : (s.called i zone logs threads returned).submits[c]? = some b) :
    b.putBefore = b.goneBefore ++ b.batch := by
  rcases submit_called hb with hb | ⟨-, rfl⟩
  · exact h.batch c b hb
  · subst hlogs
    exact hqueued i

omit h in
theorem called_serving {b : Submit} {done : List Entry} (hs : Serving cfg s c i p b done) {j : ℕ} :
    Serving cfg (s.called j zone logs threads returned) c i p b done :=
  hs.same (List.getElem?_append_left (List.getElem?_eq_some_iff.1 hs.call).1) rfl rfl

/-- A `submit` that has nothing to do. -/
theorem called_empty (hqueued : Queued s) (hi : s.logger.multis[i]? = some ⟨zone, []⟩) :
    Batched cfg (s.called i zone [] s.threads true) where
  serving u r c i' hu hr := by
    obtain ⟨b, done, hs⟩ := h.serving u r c i' hu hr
    exact ⟨b, done, called_serving hs⟩
  alone := h.alone
  pending c b hb hret := by
    rcases submit_called hb with hb | ⟨-, rfl⟩
    · exact h.pending c b hb hret
    · cases hret
  returned c b hb hret := by
    rcases submit_called hb with hb | ⟨rfl, rfl⟩
    · exact h.returned c b hb hret
    · exact Stretch.nil h.fresh_length
  fresh := h.called_fresh
  batch c b hb := h.called_batch hqueued (by rw [State.logs, hi]; rfl) hb

/-- A `submit` begins. -/
theorem called_begin (hqueued : Queued s) (hfree : s.Free t i)
    (hi : s.logger.multis[i]? = some ⟨zone, logs⟩) :
    Batched cfg (s.called i zone logs (s.threads.set t (.locking s.submits.length i)) false) where
  serving u r c i' hu hr := by
    obtain ⟨rfl, rfl⟩ | ⟨-, hu⟩ := getElem?_move hu
    · cases hr
      exact ⟨⟨i, zone, logs, s.puts i, s.gone i, false⟩, [],
        { call := List.getElem?_concat_length
          pending := rfl
          multi := rfl
          zone := congrArg (Option.map MultiLog.zone) hi
          batch := by
            show logs = [] ++ s.logs i
            rw [State.logs, hi]
            rfl
          progress := ⟨rfl, h.fresh_length⟩ }⟩
    · obtain ⟨b, done, hs⟩ := h.serving u r c i' hu hr
      exact ⟨b, done, called_serving hs⟩
  alone u r c u' r' c' i' hu hr hu' hr' := by
    have hother : ∀ {v : ℕ} {r : Phase} {c : ℕ}, s.threads[v]? = some r → r.call ≠ some (c, i) :=
      fun hv hr => hfree.2 _ (List.mem_of_getElem? hv) (Phase.multi_of_call hr)
    obtain ⟨rfl, rfl⟩ | ⟨-, hv⟩ := getElem?_move hu <;>
      obtain ⟨rfl, rfl⟩ | ⟨-, hv'⟩ := getElem?_move hu'
    · rfl
    · cases hr
      exact absurd hr' (hother hv')
    · cases hr'
      exact absurd hr (hother hv)
    · exact h.alone u r c u' r' c' i' hv hr hv' hr'
  pending c b hb hret := by
    rcases submit_called hb with hb | ⟨rfl, rfl⟩
    · obtain ⟨u, r, hu, hr⟩ := h.pending c b hb hret
      refine ⟨u, r, (List.getElem?_set_ne ?_).trans hu, hr⟩
      rintro rfl
      rw [hfree.1] at hu
      obtain rfl := Option.some.inj hu
      cases hr
    · exact ⟨t, _, List.getElem?_set_self (List.getElem?_eq_some_iff.1 hfree.1).1, rfl⟩
  returned c b hb hret := by
    rcases submit_called hb with hb | ⟨-, rfl⟩
    · exact h.returned c b hb hret
    · cases hret
  fresh := h.called_fresh
  batch c b hb := h.called_batch hqueued (by rw [State.logs, hi]; rfl) hb

end Called

/-- A `submit` returns. -/
theorem left (ht : s.threads[t]? = some (.looping c i)) (hlogs : s.logs i = []) :
    Batched cfg (s.left t c) := by
  obtain ⟨b, done, hb⟩ := h.serving t _ c i ht rfl
  have hmove : ∀ {u : ℕ} {r : Phase}, (s.left t c).threads[u]? = some r →
      (u = t ∧ r = .outside) ∨ (u ≠ t ∧ s.threads[u]? = some r) := fun hu => getElem?_move hu
  have hget : ∀ c', (s.left t c).submits[c']? = (fun b : Submit =>
      if c = c' then { b with returned := true } else b) <$> s.submits[c']? :=
    fun c' => List.getElem?_modify _ _ _ _
  have hsubmit : ∀ {c' : ℕ} {b' : Submit}, (s.left t c).submits[c']? = some b' →
      (c' = c ∧ b' = { b with returned := true }) ∨ (c' ≠ c ∧ s.submits[c']? = some b') := by
    intro c' b' hb'
    rw [hget] at hb'
    by_cases hc : c' = c
    · subst hc
      rw [hb.call] at hb'
      simp only [Option.map_eq_map, Option.map_some, Option.some.injEq, ↓reduceIte] at hb'
      exact .inl ⟨rfl, hb'.symm⟩
    · refine .inr ⟨hc, ?_⟩
      simpa [Ne.symm hc] using hb'
  have hbatch : b.batch = done := by rw [hb.batch, hlogs, List.append_nil]
  exact
    { serving := fun u r c' i' hu hr => by
        obtain ⟨rfl, rfl⟩ | ⟨hne, hu⟩ := hmove hu
        · cases hr
        · obtain ⟨b', done', hs⟩ := h.serving u r c' i' hu hr
          have hc : c ≠ c' := by
            rintro rfl
            exact hne (h.same_call hu hr ht rfl)
          refine ⟨b', done', hs.same ?_ rfl rfl⟩
          rw [hget]
          simp only [hc, ↓reduceIte, Option.map_eq_map, Option.map_id']
      alone := fun u r c' u' r' c'' i' hu hr hu' hr' => by
        obtain ⟨rfl, rfl⟩ | ⟨-, hu⟩ := hmove hu
        · cases hr
        · obtain ⟨rfl, rfl⟩ | ⟨-, hu'⟩ := hmove hu'
          · cases hr'
          · exact h.alone u r c' u' r' c'' i' hu hr hu' hr'
      pending := fun c' b' hb' hret => by
        obtain ⟨rfl, rfl⟩ | ⟨hc, hb'⟩ := hsubmit hb'
        · cases hret
        · obtain ⟨u, r, hu, hr⟩ := h.pending c' b' hb' hret
          have hut : t ≠ u := by
            rintro rfl
            rw [ht] at hu
            obtain rfl := Option.some.inj hu
            cases hr
            exact hc rfl
          exact ⟨u, r, (List.getElem?_set_ne hut).trans hu, hr⟩
      returned := fun c' b' hb' hret => by
        obtain ⟨rfl, rfl⟩ | ⟨-, hb'⟩ := hsubmit hb'
        · show Stretch s.hands _ (texts cfg b.zone b.batch)
          rw [hbatch]
          exact Opened.stretch hb.progress
        · exact h.returned c' b' hb' hret
      fresh := fun e he c' hc => by
        show c' < (s.submits.modify c _).length
        rw [List.length_modify]
        exact h.fresh e he c' hc
      batch := fun c' b' hb' => by
        obtain ⟨rfl, rfl⟩ | ⟨-, hb'⟩ := hsubmit hb'
        · exact h.batch c' b hb.call
        · exact h.batch c' b' hb' }

end Batched

/-! ## One step -/

theorem serving_lock {b : Submit} {done : List Entry}
    (hs : Serving cfg s c i (.locking c i) b done) :
    Serving cfg { s.moved t (.looping c i) with writer := some t } c i (.looping c i) b done where
  call := hs.call
  pending := hs.pending
  multi := hs.multi
  zone := hs.zone
  batch := hs.batch
  progress := by
    obtain ⟨rfl, hnone⟩ := hs.progress
    exact Opened.nil hnone

theorem serving_console {b : Submit} {done : List Entry} {zone : ℤ} {level : Level} {msg : Text}
    {logs : List Entry} (hs : Serving cfg s c i (.looping c i) b done)
    (hsame : SameConfig cfg s.logger)
    (hi : s.logger.multis[i]? = some ⟨zone, (msg, level) :: logs⟩) :
    Serving cfg (s.gave t (some c) (given (consoleSink s.logger level) level (zoneText zone ++ msg))
      (.filing c i level (zoneText zone ++ msg))) c i
      (.filing c i level (zoneText zone ++ msg)) b done where
  call := hs.call
  pending := hs.pending
  multi := hs.multi
  zone := hs.zone
  batch := hs.batch
  progress := by
    have hlogs : s.logs i = (msg, level) :: logs := by rw [State.logs, hi]; rfl
    have hzone : zone = b.zone := by
      have hz := hs.zone
      rw [hi] at hz
      exact Option.some.inj hz
    refine ⟨msg, logs, hlogs, by rw [hzone], ?_⟩
    rw [← hsame.consoleSink]
    exact Opened.append hs.progress _

theorem serving_files {b : Submit} {done : List Entry} {level : Level} {text : Text}
    (hs : Serving cfg s c i (.filing c i level text) b done) (hsame : SameConfig cfg s.logger) :
    Serving cfg (s.gave t (some c) (given (filesSink s.logger level) level text) (.popping c i)) c i
      (.popping c i) b done where
  call := hs.call
  pending := hs.pending
  multi := hs.multi
  zone := hs.zone
  batch := hs.batch
  progress := by
    obtain ⟨msg, rest, hlogs, rfl, hopen⟩ := hs.progress
    refine ⟨(msg, level), rest, hlogs, ?_⟩
    rw [texts_concat, hsame.filesSink]
    exact hopen.append _

theorem serving_popped {b : Submit} {done : List Entry}
    (hs : Serving cfg s c i (.popping c i) b done) :
    ∃ done', Serving cfg ((s.multiPop i).moved t (.looping c i)) c i (.looping c i) b done' := by
  obtain ⟨e, rest, hlogs, hopen⟩ := hs.progress
  have htail : ((s.multiPop i).moved t (.looping c i)).logs i = rest := by
    have hpop := logs_multiPop (s := s) i i
    rw [if_pos rfl, hlogs] at hpop
    exact hpop
  exact ⟨done ++ [e],
    { call := hs.call
      pending := hs.pending
      multi := hs.multi
      zone := by
        have hmultis : ((s.multiPop i).moved t (.looping c i)).logger.multis[i]?
            = s.logger.multis[i]?.map fun multi => { multi with logs := multi.logs.tail } :=
          List.getElem?_modify_eq _ _ _
        rw [hmultis, Option.map_map]
        exact hs.zone
      batch := by
        rw [htail, List.append_assoc, hs.batch, hlogs]
        rfl
      progress := hopen }⟩

/-- A thread outside of `submit` moves on, and not into one. -/
theorem outside_moved (ht : s.threads[t]? = some p) (hp : p.call = none) (hq : q.call = none)
    (u : ℕ) (r : Phase) (hr : r.call ≠ none) :
    (s.threads.set t q)[u]? = some r ↔ s.threads[u]? = some r := by
  constructor
  · intro hu
    obtain ⟨-, rfl⟩ | ⟨-, hu⟩ := getElem?_move hu
    · exact absurd hq hr
    · exact hu
  · intro hu
    refine (List.getElem?_set_ne ?_).trans hu
    rintro rfl
    rw [ht] at hu
    obtain rfl := Option.some.inj hu
    exact hr hp

/-- While a thread shares the lock, none has it alone. -/
theorem Locked.none_owns (h : Locked s) (ht : s.threads[t]? = some p) (hp : p.shares = true)
    (u : ℕ) (r : Phase) (hu : s.threads[u]? = some r) : r.owns = false := by
  by_contra hr
  have hno := (h.only hu (by simpa using hr) ht).1
  rw [hp] at hno
  cases hno

theorem multis_updateMulti_ne {f : List Entry → List Entry} {j : ℕ} (hij : j ≠ i) :
    (s.logger.updateMulti i f).multis[j]? = s.logger.multis[j]? :=
  List.getElem?_modify_ne _ _ (Ne.symm hij)

theorem free_ne {j u : ℕ} (hfree : s.Free t i) (hu : s.threads[u]? = some p)
    (hp : p.call = some (c, j)) : j ≠ i := by
  rintro rfl
  exact hfree.2 p (List.mem_of_getElem? hu) (Phase.multi_of_call hp)

/-- Of the threads in a `submit` nothing changes but the rest of the state. -/
theorem Batched.still (h : Batched cfg s)
    (hthreads : ∀ (u : ℕ) (r : Phase), r.call ≠ none →
      (s'.threads[u]? = some r ↔ s.threads[u]? = some r))
    (hsubmits : s'.submits = s.submits) (hhands : s'.hands = s.hands)
    (hmultis : ∀ (u : ℕ) (r : Phase) (c i : ℕ), s.threads[u]? = some r → r.call = some (c, i) →
      s'.logger.multis[i]? = s.logger.multis[i]?) : Batched cfg s' :=
  h.frame [] hthreads hsubmits (hhands.trans (List.append_nil _).symm)
    (fun hne => absurd rfl hne) hmultis

theorem Move.batched (hm : Move s s') (h : Batched cfg s) (hsame : SameConfig cfg s.logger)
    (hlock : Locked s) (hqueued : Queued s) : Batched cfg s' := by
  cases hm with
  | idle => exact h
  | crash => exact h.still (fun _ _ _ => Iff.rfl) rfl rfl fun _ _ _ _ _ _ => rfl
  | create zone =>
    refine h.still (fun _ _ _ => Iff.rfl) rfl rfl fun u r c i hu hr => ?_
    obtain ⟨b, done, hs⟩ := h.serving u r c i hu hr
    obtain ⟨multi, hmulti, -⟩ := Option.map_eq_some_iff.1 hs.zone
    exact List.getElem?_append_left (List.getElem?_eq_some_iff.1 hmulti).1
  | push t i e hfree hi =>
    exact h.still (fun _ _ _ => Iff.rfl) rfl rfl fun u r c j hu hr =>
      multis_updateMulti_ne (free_ne hfree hu hr)
  | keep i e hout => exact h.still (fun _ _ _ => Iff.rfl) rfl rfl fun _ _ _ _ _ _ => rfl
  | pop t i hfree =>
    exact h.still (fun _ _ _ => Iff.rfl) rfl rfl fun u r c j hu hr =>
      multis_updateMulti_ne (free_ne hfree hu hr)
  | call t level zone msg ht =>
    exact h.still (outside_moved ht rfl rfl) rfl rfl fun _ _ _ _ _ _ => rfl
  | share t level zone msg ht hw =>
    exact h.still (outside_moved ht rfl rfl) rfl rfl fun _ _ _ _ _ _ => rfl
  | putConsole t level zone msg text ht =>
    exact h.frame _ (outside_moved ht rfl rfl) rfl rfl (fun _ => hlock.none_owns ht rfl)
      fun _ _ _ _ _ _ => rfl
  | putFiles t level text ht =>
    exact h.frame _ (outside_moved ht rfl rfl) rfl rfl (fun _ => hlock.none_owns ht rfl)
      fun _ _ _ _ _ _ => rfl
  | unshare t ht => exact h.still (outside_moved ht rfl rfl) rfl rfl fun _ _ _ _ _ _ => rfl
  | submitEmpty i zone hi => exact h.called_empty hqueued hi
  | submit t i zone logs hfree hi => exact h.called_begin hqueued hfree hi
  | lock t c i ht hw hr =>
    exact h.advance [] hlock ht rfl rfl rfl rfl (List.append_nil _).symm
      (fun hne => absurd rfl hne) (fun _ _ => rfl) fun b done hs => ⟨done, serving_lock hs⟩
  | console t c i zone level msg logs ht hi =>
    exact h.advance _ hlock ht rfl rfl rfl rfl rfl (fun _ => rfl) (fun _ _ => rfl) fun b done hs =>
      ⟨done, serving_console hs hsame hi⟩
  | files t c i level text ht =>
    exact h.advance _ hlock ht rfl rfl rfl rfl rfl (fun _ => rfl) (fun _ _ => rfl) fun b done hs =>
      ⟨done, serving_files hs hsame⟩
  | popped t c i ht =>
    exact h.advance [] hlock ht rfl rfl rfl rfl (List.append_nil _).symm
      (fun hne => absurd rfl hne) (fun j hj => multis_updateMulti_ne hj) fun b done hs =>
      serving_popped hs
  | leave t c i ht hlogs => exact h.left ht hlogs

/-! ## Runs -/

structure Inv (cfg : Logger.State) (s : State) : Prop where
  config : SameConfig cfg s.logger
  accounted : Accounted cfg s
  queued : Queued s
  keptOut : KeptOut cfg s
  locked : Locked s
  batched : Batched cfg s

theorem start_inv (n : ℕ) (cfg : Logger.State) : Inv cfg (start n cfg) where
  config := ⟨rfl, rfl, rfl, rfl⟩
  accounted := (List.append_nil _).symm
  queued _ := rfl
  keptOut i e he := by cases he
  locked := start_locked n cfg
  batched := start_batched n cfg

theorem step_inv (hcfg : Covers cfg) (h : Inv cfg s) (a : Action) : Inv cfg (step s a).2 where
  config := (step_move a).config h.config
  accounted := (step_move a).accounted h.accounted
  queued := (step_move a).queued h.queued
  keptOut := (step_move a).keptOut hcfg h.config h.keptOut
  locked := (step_move a).locked h.locked
  batched := (step_move a).batched h.batched h.config h.locked h.queued

theorem run_inv (hcfg : Covers cfg) (n : ℕ) (as : List Action) :
    Inv cfg (run step (start n cfg) as).2 :=
  run_invariant (I := Inv cfg) (fun _ a hs _ => step_inv hcfg hs a) _ as (start_inv n cfg)
    (RunOk.top _ _)

/-! ## What a sink is handed -/

/-- The messages that are enabled for the sink, as it is handed them. -/
def onSink (cfg : Logger.State) (zone : ℤ) (es : List Entry) (sink : Sink) : List Handed :=
  (es.filter fun e => sink ∈ sinksFor cfg e.2).map fun e => ⟨sink, e.2, zoneText zone ++ e.1⟩

theorem consoleSink_ne_files (level : Level) : consoleSink cfg level ≠ some .files := by
  cases level <;> simp only [consoleSink, consoleSink.severe] <;> split_ifs <;> simp

/-- A message goes to a sink once, or not at all. -/
theorem sinksFor_filter (sink : Sink) (level : Level) :
    (sinksFor cfg level).filter (fun x => x = sink)
      = if sink ∈ sinksFor cfg level then [sink] else [] := by
  have hne : consoleSink cfg level ≠ some .files := consoleSink_ne_files level
  have hfiles : filesSink cfg level = none ∨ filesSink cfg level = some .files := by
    cases level <;> simp only [filesSink] <;> split_ifs <;> simp
  unfold sinksFor
  rcases hc : consoleSink cfg level with _ | console
  · rcases hfiles with hf | hf <;> rw [hf] <;> cases sink <;> rfl
  · rw [hc] at hne
    rcases hfiles with hf | hf <;> rw [hf] <;> cases console <;> cases sink <;>
      first | rfl | exact absurd rfl hne

theorem texts_filter (zone : ℤ) (sink : Sink) :
    ∀ es, (texts cfg zone es).filter (fun x => x.sink = sink) = onSink cfg zone es sink
  | [] => rfl
  | e :: es => by
    have ih := texts_filter zone sink es
    have hhead : ((sinksFor cfg e.2).map fun sink =>
          Handed.mk sink e.2 (zoneText zone ++ e.1)).filter (fun x => x.sink = sink)
        = ((sinksFor cfg e.2).filter fun x => x = sink).map fun sink =>
            ⟨sink, e.2, zoneText zone ++ e.1⟩ := by
      rw [List.filter_map]
      rfl
    unfold texts onSink at ih ⊢
    rw [List.flatMap_cons, List.filter_append, ih, hhead, sinksFor_filter, List.filter_cons]
    by_cases hmem : sink ∈ sinksFor cfg e.2
    · rw [if_pos hmem, if_pos (decide_eq_true hmem)]
      rfl
    · rw [if_neg hmem, if_neg (by simpa using hmem)]
      rfl

theorem Serving.stretch {b : Submit} {done : List Entry} (hs : Serving cfg s c i p b done) :
    ∃ own, Stretch s.hands (some c) own ∧ own <+: texts cfg b.zone b.batch := by
  have hprogress := hs.progress
  rw [hs.batch]
  cases p with
  | locking => exact ⟨[], Stretch.nil hprogress.2, List.nil_prefix⟩
  | looping =>
    refine ⟨_, Opened.stretch hprogress, ?_⟩
    rw [texts_append]
    exact List.prefix_append _ _
  | filing c' i' level text =>
    obtain ⟨msg, rest, hlogs, rfl, hopen⟩ := hprogress
    refine ⟨_, hopen.stretch, ?_⟩
    rw [hlogs, List.append_cons, texts_append, texts_concat, List.append_assoc]
    exact List.prefix_append _ _
  | popping =>
    obtain ⟨e, rest, hlogs, hopen⟩ := hprogress
    refine ⟨_, hopen.stretch, ?_⟩
    rw [hlogs, List.append_cons done e rest, texts_append b.zone (done ++ [e])]
    exact List.prefix_append _ _
  | outside | sharing | putting | putFiling | unsharing => exact hprogress.elim

theorem Batched.stretch (h : Batched cfg s) {b : Submit} (hb : s.submits[c]? = some b) :
    ∃ own, Stretch s.hands (some c) own ∧ own <+: texts cfg b.zone b.batch
      ∧ (b.returned = true → own = texts cfg b.zone b.batch) := by
  rcases hret : b.returned with _ | _
  · obtain ⟨t, p, ht, hp⟩ := h.pending c b hb hret
    obtain ⟨b', done, hs⟩ := h.serving t p c b.multi ht hp
    obtain rfl : b = b' := Option.some.inj (hb.symm.trans hs.call)
    obtain ⟨own, hown, hpre⟩ := hs.stretch
    exact ⟨own, hown, hpre, fun hno => by cases hno⟩
  · exact ⟨_, h.returned c b hb hret, List.prefix_rfl, fun _ => rfl⟩

/-- What a sink is handed of one call of `submit` comes in one stretch, in the order of the batch:
all that is enabled for it, once the call has returned, and the first part of it before. The batch
is what was put into the `MultiLog` less what had been taken out, and what `should_log` kept out of
it is for no sink; and these records are those of the calls of `put`, `pop` and `submit` that the
run makes. -/
theorem submits_contiguous (setting : List Logger.Action) (n : ℕ) (as : List Action) :
    let cfg := (run Logger.step construct setting).2
    let s := (run step (start n cfg) as).2
    s.logger.handed = cfg.handed ++ s.hands.map Prod.snd
      ∧ (∀ i, s.puts i = s.gone i ++ s.logs i)
      ∧ (∀ i, ∀ e ∈ s.keptOut i, sinksFor cfg e.2 = [])
      ∧ (∀ i, s.puts i = incoming (fun s a => s.putIn true i a) step (start n cfg) as
        ∧ s.keptOut i = incoming (fun s a => s.putIn false i a) step (start n cfg) as
        ∧ s.gone i = incoming (fun s a => s.takenOut i a) step (start n cfg) as)
      ∧ s.submits.map Submit.begun = incoming State.submitting step (start n cfg) as
      ∧ ∀ c b, s.submits[c]? = some b →
        b.putBefore = b.goneBefore ++ b.batch
          ∧ ∀ sink, ∃ own, Stretch (s.hands.filter fun e => e.2.sink = sink) (some c) own
            ∧ own <+: onSink cfg b.zone b.batch sink
            ∧ (b.returned = true → own = onSink cfg b.zone b.batch sink) := by
  intro cfg s
  have h : Inv cfg s := run_inv (setting_covers setting) n as
  refine ⟨h.accounted, h.queued, h.keptOut,
    fun i => ⟨run_put n cfg as i, run_keptOut n cfg as i, run_gone n cfg as i⟩,
    run_submits n cfg as, fun c b hb => ⟨h.batched.batch c b hb, fun sink => ?_⟩⟩
  obtain ⟨own, hown, hpre, hret⟩ := h.batched.stretch hb
  refine ⟨own.filter fun x => x.sink = sink, hown.filter fun x => x.sink = sink, ?_, fun hr => ?_⟩
  · rw [← texts_filter]
    exact hpre.filter _
  · rw [hret hr, texts_filter]

/-- A batch of two messages is submitted, and another thread has a message before it and one after
it, for which it waits meanwhile. -/
example :
    let cfg := (run Logger.step construct [.setup 5 fun _ => .done]).2
    let before : List Action := [.newMulti 0, .multiPut 0 0 .info [1], .multiPut 0 0 .error [2],
      .put 1 .warn 0 [3], .submit 0 0, .advance 1, .advance 0, .advance 1, .advance 1, .advance 1]
    let after : List Action := [.advance 0, .advance 0, .put 1 .info 0 [4], .advance 1,
      .advance 0, .advance 0, .advance 0, .advance 1, .advance 0, .advance 0, .advance 0,
      .advance 1, .advance 1]
    ((run step (start 2 cfg) (before ++ after)).2.hands.map fun e => (e.1, e.2.sink))
      = [(none, .stdout), (none, .files), (some 0, .stdout), (some 0, .files), (some 0, .stdout),
        (some 0, .files), (none, .stdout)] := by
  decide

end Logger.Threads

end XCache
