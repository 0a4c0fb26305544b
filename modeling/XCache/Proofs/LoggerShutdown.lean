import XCache.Lib.Progress
import XCache.Proofs.LoggerBatches

/-!
# The logger's calls come to their end

A thread that waits for `logger_lock` waits for threads in sections under it, and each of these can
go on (`Locked.advances`). A `submit` has the rounds before it that its `MultiLog` has messages,
which nobody else puts in or takes out meanwhile, so each step of a thread brings down what the
threads have left to do (`Move.remaining`).
-/

namespace XCache

namespace Logger.Threads

variable {cfg : Logger.State} {s s' : State} {t : ℕ} {p q : Phase}

/-- The action calls `put_*` or `submit`. -/
def Action.begins : Action → Bool
  | .put _ _ _ _ | .submit _ _ => true
  | .newMulti _ | .newMultiMin _ _ | .multiPut _ _ _ _ | .multiPutNum _ _ _ _ | .multiPop _ _
  | .advance _ => false

/-- The steps a thread has before it, but for the rounds of a `submit`. -/
def Phase.steps : Phase → ℕ
  | .outside => 0
  | .unsharing | .popping _ _ => 1
  | .putFiling _ _ | .filing _ _ _ _ => 2
  | .putting _ _ _ | .looping _ _ => 3
  | .sharing _ _ _ | .locking _ _ => 4

/-- The messages a thread has before it, in `submit`. -/
def State.queue (s : State) (p : Phase) : List Entry := (p.multi.map s.logs).getD []

/-- The messages of the `MultiLog`s that are being submitted. -/
def State.submitted (s : State) : ℕ := (s.threads.map fun p => (s.queue p).length).sum

def State.weight (s : State) (p : Phase) : ℕ := p.steps + 3 * (s.queue p).length

def State.remaining (s : State) : ℕ :=
  (s.threads.map s.weight).sum + (if s.crashed then 0 else 1)

/-- Where the threads are, or that the program has ended. -/
def State.places (s : State) : List Phase × Bool := (s.threads, s.crashed)

/-! ## A thread that is in no call -/

theorem hand_threads (s : State) (t : ℕ) (c : Option ℕ) (sink : Option Sink) (level : Level)
    (text : Text) (p : Phase) :
    (s.hand t c sink level text p).threads = s.threads
      ∨ (s.hand t c sink level text p).threads = s.threads.set t p := by
  obtain ⟨-, heq⟩ | ⟨e, -, heq⟩ := hand_cases s t c sink level text p
  · exact .inr (by rw [heq]; rfl)
  · exact .inl (by rw [heq]; rfl)

theorem handConsole_threads (s : State) (t : ℕ) (c : Option ℕ) (level : Level) (zone : ℤ)
    (msg : Text) (p : Text → Phase) :
    (s.handConsole t c level zone msg p).threads = s.threads
      ∨ ∃ q, (s.handConsole t c level zone msg p).threads = s.threads.set t q := by
  obtain ⟨-, heq⟩ | ⟨e, -, heq⟩ := handConsole_cases s t c level zone msg p
  · rw [heq]
    exact (hand_threads s t c _ level _ _).imp_right fun h => ⟨_, h⟩
  · exact .inl (by rw [heq]; rfl)

theorem loop_threads (s : State) (t c i : ℕ) :
    (s.loop t c i).threads = s.threads ∨ ∃ q, (s.loop t c i).threads = s.threads.set t q := by
  unfold State.loop
  split
  · exact handConsole_threads s t _ _ _ _ _
  · exact .inr ⟨.outside, rfl⟩
  · exact .inr ⟨.outside, rfl⟩

/-- A thread leaves the others where they are. -/
theorem advance_threads (s : State) (t : ℕ) :
    (s.advance t).threads = s.threads
      ∨ s.threads[t]? ≠ some .outside ∧ ∃ q, (s.advance t).threads = s.threads.set t q := by
  unfold State.advance
  split <;> rename_i ht <;> try rw [ht]
  · split_ifs
    · exact .inr ⟨nofun, _, rfl⟩
    · exact .inl rfl
  · exact (handConsole_threads s t _ _ _ _ _).imp_right fun h => ⟨nofun, h⟩
  · exact (hand_threads s t _ _ _ _ _).imp_right fun h => ⟨nofun, _, h⟩
  · exact .inr ⟨nofun, _, rfl⟩
  · split_ifs
    · exact .inr ⟨nofun, _, rfl⟩
    · exact .inl rfl
  · exact (loop_threads s t _ _).imp_right fun h => ⟨nofun, h⟩
  · exact (hand_threads s t _ _ _ _ _).imp_right fun h => ⟨nofun, _, h⟩
  · exact .inr ⟨nofun, _, rfl⟩
  · exact .inl rfl
  · exact .inl rfl

theorem multiPut_threads (s : State) (i : ℕ) (level : Level) (msg : Text) :
    (s.multiPut i level msg).threads = s.threads := by
  unfold State.multiPut
  split_ifs <;> rfl

theorem step_outside {a : Action} (ha : a.begins = false) {u : ℕ}
    (hu : s.threads[u]? = some .outside) : (step s a).2.threads[u]? = some .outside := by
  have hact : (act s a).threads[u]? = some .outside := by
    cases a with
    | put | submit => cases ha
    | newMulti | newMultiMin => exact hu
    | multiPut t i level msg =>
      dsimp only [act]
      split_ifs
      · rwa [multiPut_threads]
      · exact hu
    | multiPutNum t i msg level =>
      dsimp only [act]
      split
      · exact hu
      · split_ifs
        · rwa [multiPut_threads]
        · exact hu
    | multiPop t i =>
      dsimp only [act]
      split_ifs <;> exact hu
    | advance t =>
      dsimp only [act]
      obtain heq | ⟨ht, q, heq⟩ := advance_threads s t
      · rwa [heq]
      · rw [heq, List.getElem?_set_ne]
        · exact hu
        · rintro rfl
          exact ht hu
  unfold step
  dsimp only
  split_ifs
  · exact hu
  · exact hact

/-! ## What a step leaves to do -/

theorem Phase.call_of_multi {i : ℕ} (hp : p.multi = some i) : ∃ c, p.call = some (c, i) := by
  cases p <;> simp_all [Phase.call, Phase.multi]

theorem queue_eq {i : ℕ} (s : State) (hp : p.multi = some i) : s.queue p = s.logs i := by
  rw [State.queue, hp]
  rfl

theorem queue_congr (hlogs : ∀ i, p.multi = some i → s'.logs i = s.logs i) :
    s'.queue p = s.queue p := by
  unfold State.queue
  rcases hp : p.multi with _ | i
  · rfl
  · exact hlogs i hp

/-- No thread moves, and no `MultiLog` changes that is being submitted. -/
theorem remaining_stay (hthreads : s'.threads = s.threads) (hcrash : s'.crashed = s.crashed)
    (hlogs : ∀ r ∈ s.threads, ∀ i, r.multi = some i → s'.logs i = s.logs i) :
    s'.places = s.places ∧ s'.remaining = s.remaining := by
  have hsame : s.threads.map s'.weight = s.threads.map s.weight := by
    refine List.map_congr_left fun r hr => ?_
    rw [State.weight, State.weight, queue_congr (hlogs r hr)]
  rw [State.places, State.places, State.remaining, State.remaining, hthreads, hcrash, hsame]
  exact ⟨rfl, rfl⟩

/-- A thread moves on, and no other's `MultiLog` changes. -/
theorem remaining_move (ht : s.threads[t]? = some p) (hthreads : s'.threads = s.threads.set t q)
    (hcrash : s'.crashed = s.crashed)
    (hlogs : ∀ u r, u ≠ t → s.threads[u]? = some r → ∀ i, r.multi = some i →
      s'.logs i = s.logs i)
    (hlt : s'.weight q < s.weight p) : s'.remaining < s.remaining := by
  have hsum : ((s.threads.set t q).map s'.weight).sum + s.weight p
      = (s.threads.map s.weight).sum + s'.weight q :=
    sum_move_of ht fun u r hu hr => by
      rw [State.weight, State.weight, queue_congr (hlogs u r hu hr)]
  rw [State.remaining, State.remaining, hthreads, hcrash]
  omega

theorem remaining_next (ht : s.threads[t]? = some p) (hthreads : s'.threads = s.threads.set t q)
    (hcrash : s'.crashed = s.crashed) (hlogs : ∀ i, s'.logs i = s.logs i)
    (hmulti : q.multi = p.multi) (hlt : q.steps < p.steps) : s'.remaining < s.remaining := by
  refine remaining_move ht hthreads hcrash (fun _ _ _ _ i _ => hlogs i) ?_
  have hqueue : s'.queue q = s.queue p := by
    rw [queue_congr fun i _ => hlogs i, State.queue, State.queue, hmulti]
  rw [State.weight, State.weight, hqueue]
  omega

theorem remaining_crash (h : s.crashed = false) : s.crash.remaining < s.remaining := by
  show (s.threads.map s.weight).sum + 0 < (s.threads.map s.weight).sum + if s.crashed then 0 else 1
  rw [h]
  exact Nat.lt_succ_self _

/-- In its own `submit` no other thread touches a `MultiLog`. -/
theorem Batched.others (h : Batched cfg s) {c i : ℕ} (ht : s.threads[t]? = some p)
    (hp : p.call = some (c, i)) (u : ℕ) (r : Phase) (hu : u ≠ t) (hr : s.threads[u]? = some r) :
    r.multi ≠ some i := by
  intro hmulti
  obtain ⟨c', hcall⟩ := Phase.call_of_multi hmulti
  exact hu (h.alone u r c' t p c i hr hcall ht hp)

/-- A round of `submit` takes a message out. -/
theorem remaining_popped (h : Batched cfg s) {c i : ℕ}
    (ht : s.threads[t]? = some (.popping c i)) :
    ((s.multiPop i).moved t (.looping c i)).remaining < s.remaining := by
  have hlogs : ∀ j, ((s.multiPop i).moved t (.looping c i)).logs j
      = if i = j then (s.logs i).tail else s.logs j := logs_multiPop i
  refine remaining_move ht rfl rfl (fun u r hu hr j hj => ?_) ?_
  · have hne := h.others ht rfl u r hu hr
    rw [hlogs, if_neg]
    rintro rfl
    exact hne hj
  · obtain ⟨b, done, hs⟩ := h.serving t _ c i ht rfl
    obtain ⟨e, rest, hcons, -⟩ := hs.progress
    rw [State.weight, State.weight, queue_eq (i := i) _ rfl, queue_eq (i := i) _ rfl, hlogs,
      if_pos rfl, hcons]
    simp only [Phase.steps, List.tail_cons, List.length_cons]
    omega

theorem Move.remaining (hm : Move s s') (h : Inv cfg s) (hcrash : s.crashed = false)
    (hout : ∀ u : ℕ, s.threads[u]? = some Phase.outside → s'.threads[u]? = some Phase.outside) :
    s'.remaining < s.remaining ∨ s'.places = s.places ∧ s'.remaining = s.remaining := by
  have hstays : ∀ {u : ℕ} {r : Phase}, s.threads[u]? = some Phase.outside →
      s'.threads = s.threads.set u r → r = .outside := by
    intro u r hu hthreads
    have hget := hout u hu
    rw [hthreads, List.getElem?_set_self (List.getElem?_eq_some_iff.1 hu).1] at hget
    exact Option.some.inj hget
  cases hm with
  | idle => exact .inr ⟨rfl, rfl⟩
  | crash => exact .inl (remaining_crash hcrash)
  | create zone => exact .inr (remaining_stay rfl rfl fun _ _ i _ => logs_create rfl i)
  | push t i e hfree hi =>
    refine .inr (remaining_stay rfl rfl fun r hr j hj => ?_)
    rw [logs_pushed hi, if_neg]
    rintro rfl
    exact hfree.2 r hr hj
  | keep i e hkept => exact .inr (remaining_stay rfl rfl fun _ _ _ _ => rfl)
  | pop t i hfree =>
    refine .inr (remaining_stay rfl rfl fun r hr j hj => ?_)
    rw [logs_multiPop, if_neg]
    rintro rfl
    exact hfree.2 r hr hj
  | submitEmpty i zone hi => exact .inr (remaining_stay rfl rfl fun _ _ _ _ => rfl)
  | call t level zone msg ht => exact absurd (hstays ht rfl) nofun
  | submit t i zone logs hfree hi => exact absurd (hstays hfree.1 rfl) nofun
  | share t level zone msg ht hw =>
    exact .inl (remaining_next ht rfl rfl (fun _ => rfl) rfl (by simp [Phase.steps]))
  | putConsole t level zone msg text ht =>
    exact .inl (remaining_next ht rfl rfl (fun _ => rfl) rfl (by simp [Phase.steps]))
  | putFiles t level text ht =>
    exact .inl (remaining_next ht rfl rfl (fun _ => rfl) rfl (by simp [Phase.steps]))
  | unshare t ht =>
    exact .inl (remaining_next ht rfl rfl (fun _ => rfl) rfl (by simp [Phase.steps]))
  | lock t c i ht hw hr =>
    exact .inl (remaining_next ht rfl rfl (fun _ => rfl) rfl (by simp [Phase.steps]))
  | console t c i zone level msg logs ht hi =>
    exact .inl (remaining_next ht rfl rfl (fun _ => rfl) rfl (by simp [Phase.steps]))
  | files t c i level text ht =>
    exact .inl (remaining_next ht rfl rfl (fun _ => rfl) rfl (by simp [Phase.steps]))
  | popped t c i ht => exact .inl (remaining_popped h.batched ht)
  | leave t c i ht hlogs =>
    refine .inl (remaining_move ht rfl rfl (fun _ _ _ _ _ _ => rfl) ?_)
    show 0 < 3 + 3 * _
    omega

theorem step_remaining (h : Inv cfg s) {a : Action} (ha : a.begins = false) :
    (step s a).2.remaining < s.remaining
      ∨ (step s a).2.places = s.places ∧ (step s a).2.remaining = s.remaining := by
  rcases hcrash : s.crashed with _ | _
  · exact (step_move a).remaining h hcrash fun u hu => step_outside ha hu
  · have hsame : (step s a).2 = s := if_pos hcrash
    exact .inr (by rw [hsame]; exact ⟨rfl, rfl⟩)

/-! ## Some thread can go on -/

theorem places_moved (ht : s.threads[t]? = some p) (hthreads : s'.threads = s.threads.set t q)
    (hpq : q ≠ p) : s'.places ≠ s.places := by
  intro heq
  have hsame : s.threads.set t q = s.threads := hthreads.symm.trans (Prod.mk.inj heq).1
  have hget : (s.threads.set t q)[t]? = s.threads[t]? := by rw [hsame]
  rw [List.getElem?_set_self (List.getElem?_eq_some_iff.1 ht).1, ht] at hget
  exact hpq (Option.some.inj hget)

theorem places_crash (h : s.crashed = false) : s.crash.places ≠ s.places := by
  intro heq
  have htrue : true = s.crashed := (Prod.mk.inj heq).2
  rw [h] at htrue
  cases htrue

theorem places_hand (h : s.crashed = false) (ht : s.threads[t]? = some p) (c : Option ℕ)
    (sink : Option Sink) (level : Level) (text : Text) (hpq : q ≠ p) :
    (s.hand t c sink level text q).places ≠ s.places := by
  obtain ⟨-, heq⟩ | ⟨e, -, heq⟩ := hand_cases s t c sink level text q
  · rw [heq]
    exact places_moved ht rfl hpq
  · rw [heq]
    exact places_crash h

theorem places_handConsole (h : s.crashed = false) (ht : s.threads[t]? = some p) (c : Option ℕ)
    (level : Level) (zone : ℤ) (msg : Text) (next : Text → Phase) (hpq : ∀ text, next text ≠ p) :
    (s.handConsole t c level zone msg next).places ≠ s.places := by
  obtain ⟨-, heq⟩ | ⟨e, -, heq⟩ := handConsole_cases s t c level zone msg next
  · rw [heq]
    exact places_hand h ht c _ level _ (hpq _)
  · rw [heq]
    exact places_crash h

theorem places_loop (h : s.crashed = false) {c i : ℕ} (ht : s.threads[t]? = some (.looping c i)) :
    (s.loop t c i).places ≠ s.places := by
  unfold State.loop
  split
  · exact places_handConsole h ht _ _ _ _ _ fun _ => nofun
  · exact places_moved (q := .outside) ht rfl nofun
  · exact places_moved (q := .outside) ht rfl nofun

/-- A thread in a call goes on, if it does not wait for the lock. -/
theorem advance_places (h : s.crashed = false) (ht : s.threads[t]? = some p) (hp : p ≠ .outside)
    (hfree : (p.owns || p.shares) = true ∨ s.writer = none ∧ s.readers = 0) :
    (s.advance t).places ≠ s.places := by
  cases p with
  | outside => exact absurd rfl hp
  | sharing level zone msg =>
    have hw := (hfree.resolve_left Bool.false_ne_true).1
    simp only [State.advance, ht, hw, if_true]
    exact places_moved (q := .putting level zone msg) ht rfl (by simp)
  | locking c i =>
    have hw := hfree.resolve_left Bool.false_ne_true
    simp only [State.advance, ht, hw, and_self, if_true]
    exact places_moved (q := .looping c i) ht rfl (by simp)
  | putting level zone msg =>
    simp only [State.advance, ht]
    exact places_handConsole h ht _ _ _ _ _ fun _ => by simp
  | putFiling level text =>
    simp only [State.advance, ht]
    exact places_hand h ht _ _ _ _ (by simp)
  | unsharing =>
    simp only [State.advance, ht]
    exact places_moved (q := .outside) ht rfl (by simp)
  | looping c i =>
    simp only [State.advance, ht]
    exact places_loop h ht
  | filing c i level text =>
    simp only [State.advance, ht]
    exact places_hand h ht _ _ _ _ (by simp)
  | popping c i =>
    simp only [State.advance, ht]
    exact places_moved (q := .looping c i) ht rfl (by simp)

/-- As long as a thread is in a call, one of those that are can go on. -/
theorem Locked.advances (hlock : Locked s) (h : s.crashed = false)
    (hin : ∃ p ∈ s.threads, p ≠ .outside) :
    ∃ t, (step s (.advance t)).2.places ≠ s.places := by
  have hstep : ∀ t, (step s (.advance t)).2 = s.advance t := fun t => if_neg (by simp [h])
  simp only [hstep]
  by_cases hsection : ∃ p ∈ s.threads, (p.owns || p.shares) = true
  · obtain ⟨p, hmem, hp⟩ := hsection
    obtain ⟨t, ht⟩ := List.mem_iff_getElem?.1 hmem
    refine ⟨t, advance_places h ht ?_ (.inl hp)⟩
    rintro rfl
    cases hp
  · have hnone : ∀ p ∈ s.threads, p.owns = false ∧ p.shares = false := fun p hp => by
      have hno : ¬ (p.owns || p.shares) = true := fun hsec => hsection ⟨p, hp, hsec⟩
      simpa using hno
    have hw : s.writer = none := by
      rw [Option.eq_none_iff_forall_ne_some]
      intro t ht
      obtain ⟨p, hp, howns⟩ := (hlock.writer t).1 ht
      rw [(hnone p (List.mem_of_getElem? hp)).1] at howns
      cases howns
    have hr : s.readers = 0 := by
      rw [hlock.readers, List.countP_eq_zero]
      intro p hp
      rw [(hnone p hp).2]
      exact Bool.false_ne_true
    obtain ⟨p, hmem, hp⟩ := hin
    obtain ⟨t, ht⟩ := List.mem_iff_getElem?.1 hmem
    exact ⟨t, advance_places h ht hp (.inr ⟨hw, hr⟩)⟩

/-! ## Runs -/

theorem remaining_le (s : State) :
    s.remaining ≤ 4 * s.threads.length + 3 * s.submitted + 1 := by
  have hweights : (s.threads.map s.weight).sum
      ≤ (s.threads.map fun p => 4 + 3 * (s.queue p).length).sum := by
    refine List.sum_le_sum fun p _ => ?_
    have hsteps : p.steps ≤ 4 := by rcases p <;> simp [Phase.steps]
    rw [State.weight]
    omega
  have hsplit : (s.threads.map fun p => 4 + 3 * (s.queue p).length).sum
      = 4 * s.threads.length + 3 * s.submitted := by
    rw [List.sum_map_add, List.sum_map_mul_left, List.map_const', List.sum_replicate, smul_eq_mul,
      mul_comm, State.submitted]
  rw [State.remaining]
  split <;> omega

/-- From any state of any run on, whatever is put into `MultiLog`s that are not being submitted:
while no `put_*` and no `submit` is called, the threads move at most four times each and three times
for each message that is being submitted, and where none of them can move, the program has ended, or
every call has returned and `logger_lock` is free. -/
theorem submits_return (setting : List Logger.Action) (n : ℕ) (as : List Action) :
    let s := (run step (start n (run Logger.step construct setting).2) as).2
    ∀ more, RunOk step (fun _ a => a.begins = false) s more →
      changes State.places step s more ≤ 4 * s.threads.length + 3 * s.submitted + 1
        ∧ ((∀ t, (step (run step s more).2 (.advance t)).2.places = (run step s more).2.places) →
          (run step s more).2.crashed = false →
            (∀ p ∈ (run step s more).2.threads, p = .outside)
              ∧ (∀ b ∈ (run step s more).2.submits, b.returned = true)
              ∧ (run step s more).2.writer = none ∧ (run step s more).2.readers = 0) := by
  intro s more hmore
  have hcovers := setting_covers setting
  have hs : Inv (run Logger.step construct setting).2 s := run_inv hcovers n as
  have hlast : Inv (run Logger.step construct setting).2 (run step s more).2 :=
    run_invariant (I := Inv _) (fun _ a h _ => step_inv hcovers h a) s more hs (RunOk.top s more)
  refine ⟨?_, fun hnone hcrash => ?_⟩
  · have hle := changes_le (I := Inv (run Logger.step construct setting).2) State.remaining
      (fun _ a h _ => step_inv hcovers h a)
      (fun t a h ha hne => (step_remaining h ha).resolve_right fun heq => hne heq.1)
      (fun t a h ha _ => (step_remaining h ha).elim le_of_lt fun heq => heq.2.le) s more hs hmore
    exact hle.trans (remaining_le s)
  · have hout : ∀ p ∈ (run step s more).2.threads, p = .outside := by
      by_contra hnot
      obtain ⟨t, ht⟩ := hlast.locked.advances hcrash (by simpa using hnot)
      exact ht (hnone t)
    refine ⟨hout, fun b hb => ?_, ?_, ?_⟩
    · by_contra hpending
      obtain ⟨c, hc⟩ := List.mem_iff_getElem?.1 hb
      obtain ⟨t, p, ht, hp⟩ := hlast.batched.pending c b hc (by simpa using hpending)
      rw [hout p (List.mem_of_getElem? ht)] at hp
      cases hp
    · rw [Option.eq_none_iff_forall_ne_some]
      intro t ht
      obtain ⟨p, hp, howns⟩ := (hlast.locked.writer t).1 ht
      rw [hout p (List.mem_of_getElem? hp)] at howns
      cases howns
    · rw [hlast.locked.readers, List.countP_eq_zero]
      intro p hp
      rw [hout p hp]
      exact Bool.false_ne_true

end Logger.Threads

end XCache
