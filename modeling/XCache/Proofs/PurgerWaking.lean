import XCache.Lib.Progress
import XCache.PurgerWaking
import XCache.Proofs.PurgerDrain

/-!
# No notification of the purger is lost

A step here is a step of `Purger`'s model, or it leaves that one's state as it is (`core_step`).
While there is something in the queue, a notification is to come or a worker is awake, and it looks
at the queue before it sleeps (`Inv.noticed`); once the signal is set, no worker sleeps for good
(`Inv.signalled`). So the workers get through the queue, and `stop` returns, without any worker
being woken but by a notification.
-/

namespace XCache

namespace Purger

section Core

variable {c : Config} {s s' : Purger.State} {b : Purger.Action}

/-- A worker that waits stays there until its next section. -/
theorem Change.waiting (h : Change c s b s') {j : ℕ} (hb : b ≠ .take j)
    (hj : s.workers[j]? = some .waiting) : s'.workers[j]? = some .waiting := by
  have hset : ∀ {i : ℕ} {q : Phase}, i ≠ j → (s.workers.set i q)[j]? = some .waiting := fun hij =>
    (List.getElem?_set_ne hij).trans hj
  have hother : ∀ {i : ℕ} {p : Phase}, s.workers[i]? = some p → p ≠ .waiting → i ≠ j := by
    rintro i p hi hp rfl
    rw [hj] at hi
    exact hp (Option.some.inj hi).symm
  cases h with
  | none | accept | signal | stopReturn => exact hj
  | wait i | quit i | pop i => exact hset (by rintro rfl; exact hb rfl)
  | fail i _ _ task hi => exact hset (hother hi nofun)
  | purge i _ task hi => exact hset (hother hi nofun)
  | requeue i task hi => exact hset (hother hi nofun)
  | report i task hi => exact hset (hother hi nofun)

/-- A section of a worker changes something only at a worker that is at it. -/
theorem take_idle (c : Config) (s : Purger.State) (i : ℕ) :
    (Purger.step c s (.take i)).2 = s ∧ s.workers[i]? ≠ some .waiting
      ∨ i < s.workers.length ∧ (Purger.step c s (.take i)).2 = Purger.take s i := by
  rcases hi : s.workers[i]? with _ | p
  · exact .inl ⟨by simp only [Purger.step, hi], nofun⟩
  · have hlt := (List.getElem?_eq_some_iff.1 hi).1
    rcases p with _ | _ | task | task | _
    case ready | waiting => exact .inr ⟨hlt, by simp only [Purger.step, hi]⟩
    all_goals exact .inl ⟨by simp only [Purger.step, hi], by simp⟩

/-- A worker waits only where it has found the queue empty. -/
theorem take_waiting (hstop : s.stopSignal = false) {i : ℕ}
    (hi : (Purger.step c s (.take i)).2.workers[i]? = some .waiting) :
    (Purger.step c s (.take i)).2.purgeQueue = [] := by
  obtain ⟨heq, hne⟩ | ⟨hlt, heq⟩ := take_idle c s i
  · rw [heq] at hi
    exact absurd hi hne
  · rw [heq] at hi ⊢
    obtain ⟨hq, heq'⟩ | ⟨task, rest, -, heq'⟩ := take_cases hstop i
    · rw [heq']
      exact hq
    · rw [heq'] at hi
      have hget : (s.workers.set i (.requesting task.tried))[i]? = some .waiting := hi
      rw [List.getElem?_set_self hlt] at hget
      cases hget

/-- Once the signal is set, no worker waits. -/
theorem take_signalled (hstop : s.stopSignal = true) (i : ℕ) :
    (Purger.step c s (.take i)).2.workers[i]? ≠ some .waiting := by
  obtain ⟨heq, hne⟩ | ⟨hlt, heq⟩ := take_idle c s i
  · rwa [heq]
  · rw [heq, take, if_pos hstop]
    show (s.workers.set i .exited)[i]? ≠ some .waiting
    rw [List.getElem?_set_self hlt]
    simp

end Core

namespace Waking

variable {c : Config} {s s' : State} {a : Action}

/-- The step of `Purger`'s model. -/
def Action.core : Action → Option Purger.Action
  | .add path => some (.add path)
  | .take i => some (.take i)
  | .respond i httpCode buffer => some (.respond i httpCode buffer)
  | .settle i => some (.settle i)
  | .stop => some .stop
  | .stopReturn => some .stopReturn
  | .notifyOne _ | .notifyAll | .wake _ => none

theorem core_step (c : Config) (s : State) (a : Action) : (step c s a).2.core = s.core
    ∨ ∃ b, a.core = some b ∧ (step c s a).2.core = (Purger.step c s.core b).2 := by
  cases a with
  | add path => exact .inr ⟨_, rfl, rfl⟩
  | take i =>
    simp only [step, take]
    split_ifs
    · exact .inl rfl
    · exact .inr ⟨_, rfl, rfl⟩
  | respond i httpCode buffer => exact .inr ⟨_, rfl, rfl⟩
  | settle i => exact .inr ⟨_, rfl, rfl⟩
  | stop => exact .inr ⟨_, rfl, rfl⟩
  | stopReturn =>
    simp only [step, stopReturn]
    split_ifs
    · exact .inl rfl
    · exact .inr ⟨_, rfl, rfl⟩
  | notifyOne i =>
    simp only [step, notifyOne]
    split_ifs <;> exact .inl rfl
  | notifyAll =>
    simp only [step, notifyAll]
    split_ifs <;> exact .inl rfl
  | wake i => exact .inl rfl

/-- What `Purger`'s steps keep, these keep. -/
theorem core_invariant {I : Purger.State → Prop} {P : Action → Prop}
    (hstep : ∀ t a b, P a → a.core = some b → I t → I (Purger.step c t b).2) (s : State)
    (as : List Action) (hok : ∀ a ∈ as, P a) (hs : I s.core) :
    I (run (step c) s as).2.core := by
  have hrun : RunOk (step c) (fun _ a => P a) s as := RunOk.of_inputs s as hok
  refine run_invariant (I := fun t => I t.core) (fun t a h ha => ?_) s as hs hrun
  obtain heq | ⟨b, hb, heq⟩ := core_step c t a
  · rwa [heq]
  · rw [heq]
    exact hstep t.core a b ha hb h

/-! ## Who is asleep -/

structure Inv (s : State) : Prop where
  length : s.asleep.length = s.core.workers.length
  waiting : ∀ i : ℕ, s.asleep[i]? = some true → s.core.workers[i]? = some Phase.waiting
  /-- While there is a task in the queue, a worker is awake or is to be notified. -/
  noticed : s.core.stopSignal = false → s.asleep ≠ [] → s.core.purgeQueue ≠ [] →
    s.due ≠ 0 ∨ false ∈ s.asleep
  /-- Once the signal is set, all are awake or are to be notified. -/
  signalled : s.core.stopSignal = true → s.allDue = true ∨ true ∉ s.asleep
  allDue : s.allDue = true → s.core.stopSignal = true

theorem construct_inv (c : Config) : Inv (construct c) where
  length := by simp [construct, Purger.construct]
  waiting i hi := by cases List.eq_of_mem_replicate (List.mem_of_getElem? hi)
  noticed _ _ hq := absurd rfl hq
  signalled h := by cases h
  allDue h := by cases h

/-- A step of a worker that is not its section, and leaves those asleep as they are. -/
theorem Inv.other (h : Inv s) {b : Purger.Action} (hb : ∀ i, b ≠ .take i)
    (hsignal : (Purger.step c s.core b).2.stopSignal = s.core.stopSignal) {due : ℕ}
    (hdue : (Purger.step c s.core b).2.purgeQueue ≠ [] → s.core.purgeQueue ≠ [] ∨ due ≠ 0)
    (hle : s.due ≤ due) : Inv { s with core := (Purger.step c s.core b).2, due := due } where
  length := h.length.trans (step_change c s.core b).length_workers.symm
  waiting i hi := (step_change c s.core b).waiting (hb i) (h.waiting i hi)
  noticed hstop hne hq := by
    rcases hdue hq with hq | hdue
    · rcases h.noticed (hsignal ▸ hstop) hne hq with hs | hs
      · exact .inl (by show due ≠ 0; omega)
      · exact .inr hs
    · exact .inl hdue
  signalled hstop := h.signalled (hsignal ▸ hstop)
  allDue hall := hsignal.trans (h.allDue hall)

theorem getElem?_set_false {bs : List Bool} {i j : ℕ} (h : (bs.set i false)[j]? = some true) :
    bs[j]? = some true := by
  obtain ⟨-, hfalse⟩ | ⟨-, hj⟩ := getElem?_move h
  · cases hfalse
  · exact hj

theorem not_mem_set_false {bs : List Bool} (h : true ∉ bs) (i : ℕ) : true ∉ bs.set i false := by
  intro hmem
  rcases List.mem_or_eq_of_mem_set hmem with hmem | heq
  · exact h hmem
  · cases heq

theorem Inv.take (h : Inv s) (i : ℕ) : Inv (take c s i) := by
  unfold Waking.take
  split_ifs with hasleep
  · exact h
  have hchange := step_change c s.core (.take i)
  have hsignal : (Purger.step c s.core (.take i)).2.stopSignal = s.core.stopSignal :=
    hchange.worker_signal nofun
  refine ⟨?_, fun j hj => ?_, fun hstop hne hq => ?_, fun hstop => ?_,
    fun hall => hsignal.trans (h.allDue hall)⟩
  · rw [List.length_set]
    exact h.length.trans hchange.length_workers.symm
  · obtain ⟨rfl, hb⟩ | ⟨hij, hj⟩ := getElem?_move hj
    · exact of_decide_eq_true hb.symm
    · exact hchange.waiting (by rintro ⟨⟩; exact hij rfl) (h.waiting j hj)
  · by_cases hi : i < s.asleep.length
    · rcases hb : decide ((Purger.step c s.core (.take i)).2.workers[i]? = some .waiting) with _ | _
      · exact .inr (List.mem_set hi false)
      · exact absurd (take_waiting (hsignal ▸ hstop) (of_decide_eq_true hb)) hq
    · rw [List.set_eq_of_length_le (Nat.not_lt.1 hi)] at hne ⊢
      obtain ⟨heq, -⟩ | ⟨hlt, -⟩ := take_idle c s.core i
      · exact h.noticed (hsignal ▸ hstop) hne (heq ▸ hq)
      · exact absurd (h.length ▸ hlt) hi
  · have hb := take_signalled (c := c) (hsignal ▸ hstop) i
    rw [decide_eq_false hb]
    exact (h.signalled (hsignal ▸ hstop)).imp_right fun hno => not_mem_set_false hno i

theorem Inv.add (h : Inv s) (path : Str) : Inv (add c s path).2 := by
  have hchange := step_change c s.core (.add path)
  refine h.other (c := c) (b := .add path) (fun _ => nofun) ?_ (fun hq => ?_)
    (Nat.le_add_right _ _)
  · generalize (Purger.step c s.core (.add path)).2 = t at hchange
    cases hchange <;> rfl
  · by_cases hroom : s.core.purgeQueue.length < c.queueMax
    · exact .inr (by simp [Purger.add, hroom])
    · exact .inl (by simpa [Purger.step, Purger.add, hroom] using hq)

theorem Inv.respond (h : Inv s) (i : ℕ) (httpCode : ℤ) (buffer : Str) :
    Inv { s with core := (Purger.step c s.core (.respond i httpCode buffer)).2 } := by
  have hchange := step_change c s.core (.respond i httpCode buffer)
  refine h.other (b := .respond i httpCode buffer) (fun _ => nofun) (hchange.worker_signal nofun)
    (fun hq => .inl ?_) le_rfl
  generalize (Purger.step c s.core (.respond i httpCode buffer)).2 = t at hchange hq
  cases hchange <;> exact hq

theorem Inv.settle (h : Inv s) (i : ℕ) : Inv (settle c s i) := by
  have hchange := step_change c s.core (.settle i)
  refine h.other (b := .settle i) (fun _ => nofun) (hchange.worker_signal nofun) (fun hq => ?_)
    (Nat.le_add_right _ _)
  have hlength := List.length_pos_of_ne_nil hq
  by_cases hmore : s.core.purgeQueue.length
      < (Purger.step c s.core (.settle i)).2.purgeQueue.length
  · exact .inr (by simp [hmore])
  · refine .inl (List.ne_nil_of_length_pos ?_)
    omega

theorem Inv.stop (c : Config) (h : Inv s) : Inv (stop s) := by
  have hchange := step_change c s.core .stop
  have hsignal : (Purger.stop s.core).stopSignal = true := by
    unfold Purger.stop
    split_ifs with hs
    · exact hs
    · rfl
  exact
    { length := h.length.trans hchange.length_workers.symm
      waiting := fun i hi => hchange.waiting nofun (h.waiting i hi)
      noticed := fun hno => by cases hno.symm.trans hsignal
      signalled := fun _ => by
        rcases hs : s.core.stopSignal with _ | _
        · exact .inl (by simp [Waking.stop, hs])
        · exact (h.signalled hs).imp_left fun hall => by simp [Waking.stop, hall]
      allDue := fun _ => hsignal }

theorem Inv.stopReturn (c : Config) (h : Inv s) : Inv (stopReturn s) := by
  unfold Waking.stopReturn
  split_ifs
  · exact h
  · have hsame : (Purger.stopReturn s.core).stopSignal = s.core.stopSignal
        ∧ (Purger.stopReturn s.core).purgeQueue = s.core.purgeQueue := by
      unfold Purger.stopReturn
      split_ifs <;> exact ⟨rfl, rfl⟩
    exact h.other (c := c) (b := .stopReturn) (fun _ => nofun) hsame.1
      (fun hq => .inl (hsame.2 ▸ hq)) le_rfl

theorem Inv.notifyOne (h : Inv s) (i : ℕ) : Inv (notifyOne s i) := by
  unfold Waking.notifyOne
  split_ifs with hdue hasleep hsome
  · exact h
  · have hlt : i < s.asleep.length := (List.getElem?_eq_some_iff.1 hasleep).1
    exact
      { length := (List.length_set ..).trans h.length
        waiting := fun j hj => h.waiting j (getElem?_set_false hj)
        noticed := fun _ _ _ => .inr (List.mem_set hlt false)
        signalled := fun hs => (h.signalled hs).imp_right fun hno => not_mem_set_false hno i
        allDue := h.allDue }
  · exact h
  · exact
      { length := h.length
        waiting := h.waiting
        noticed := fun _ hne _ => by
          obtain ⟨b, bs, hcons⟩ := List.exists_cons_of_ne_nil hne
          refine .inr ?_
          rcases b with _ | _
          · exact hcons ▸ List.mem_cons_self
          · exact absurd (hcons ▸ List.mem_cons_self) hsome
        signalled := h.signalled
        allDue := h.allDue }

theorem Inv.notifyAll (h : Inv s) : Inv (notifyAll s) := by
  unfold Waking.notifyAll
  split_ifs with hall
  · have hawake : true ∉ s.asleep.map fun _ => false := by simp
    exact
      { length := (List.length_map _).trans h.length
        waiting := fun i hi => absurd (List.mem_of_getElem? hi) hawake
        noticed := fun hno => by cases hno.symm.trans (h.allDue hall)
        signalled := fun _ => .inr hawake
        allDue := nofun }
  · exact h

theorem Inv.wake (h : Inv s) (i : ℕ) : Inv { s with asleep := s.asleep.set i false } where
  length := (List.length_set ..).trans h.length
  waiting j hj := h.waiting j (getElem?_set_false hj)
  noticed hstop hne hq := by
    by_cases hi : i < s.asleep.length
    · exact .inr (List.mem_set hi false)
    · rw [List.set_eq_of_length_le (Nat.not_lt.1 hi)] at hne ⊢
      exact h.noticed hstop hne hq
  signalled hs := (h.signalled hs).imp_right fun hno => not_mem_set_false hno i
  allDue := h.allDue

theorem Inv.step (h : Inv s) (a : Action) : Inv (step c s a).2 := by
  cases a with
  | add path => exact h.add path
  | take i => exact h.take i
  | respond i httpCode buffer => exact h.respond i httpCode buffer
  | settle i => exact h.settle i
  | stop => exact h.stop c
  | stopReturn => exact h.stopReturn c
  | notifyOne i => exact h.notifyOne i
  | notifyAll => exact h.notifyAll
  | wake i => exact h.wake i

theorem run_inv (c : Config) (s : State) (as : List Action) (h : Inv s) :
    Inv (run (step c) s as).2 :=
  run_invariant (fun _ a h _ => h.step a) s as h (RunOk.top s as)

/-! ## What is left -/

/-- The action is a step of a worker, or a notification. -/
def Action.worker : Action → Bool
  | .take _ | .respond _ _ _ | .settle _ | .notifyOne _ => true
  | .add _ | .stop | .stopReturn | .notifyAll | .wake _ => false

/-- The action is a step of a worker or of a call of `stop`, or a notification. -/
def Action.ends : Action → Bool
  | .take _ | .respond _ _ _ | .settle _ | .notifyOne _ | .stopReturn | .notifyAll => true
  | .add _ | .stop | .wake _ => false

/-- With what is left for `Purger`'s model, `left`. -/
def measure (left : Purger.State → ℕ) (s : State) : ℕ :=
  4 * left s.core + 2 * s.due + s.asleep.countP (!·)
    + if s.allDue then s.asleep.length + 1 else 0

theorem countP_set_le (bs : List Bool) (i : ℕ) (b : Bool) :
    (bs.set i b).countP (!·) ≤ bs.countP (!·) + 1 := by
  by_cases hi : i < bs.length
  · have hcount := countP_move (P := (!·)) (q := b) (List.getElem?_eq_getElem hi)
    split at hcount <;> split at hcount <;> omega
  · rw [List.set_eq_of_length_le (Nat.not_lt.1 hi)]
    omega

/-- What is left for `Purger`'s model weighs more than a notification and a worker awake. -/
theorem measure_core {left : Purger.State → ℕ} (hlt : left s'.core < left s.core)
    (hdue : s'.due ≤ s.due + 1) (hawake : s'.asleep.countP (!·) ≤ s.asleep.countP (!·) + 1)
    (hlength : s'.asleep.length = s.asleep.length) (hall : s'.allDue = s.allDue) :
    measure left s' < measure left s := by
  rw [measure, measure, hlength, hall]
  omega

/-- A worker falls asleep. -/
theorem countP_sleeps {bs : List Bool} {i : ℕ} {b : Bool} (hawake : bs[i]? ≠ some true)
    (hne : bs.set i b ≠ bs) : (bs.set i b).countP (!·) < bs.countP (!·) := by
  have hi : i < bs.length := by
    by_contra hi
    exact hne (List.set_eq_of_length_le (Nat.not_lt.1 hi))
  have hget : bs[i]? = some false := by
    rw [List.getElem?_eq_getElem hi] at hawake ⊢
    exact congrArg some (by simpa using hawake)
  have hb : b = true := by
    rcases b with _ | _
    · refine absurd ?_ hne
      rw [← (List.getElem?_eq_some_iff.1 hget).2, List.set_getElem_self]
    · rfl
  have hcount := countP_move (P := (!·)) (q := b) hget
  simp only [hb, Bool.not_false, Bool.not_true, if_true, Bool.false_eq_true, if_false] at hcount ⊢
  omega

theorem worker_measure {left : Purger.State → ℕ}
    (hleft : ∀ b : Purger.Action, b.worker ≠ none → (Purger.step c s.core b).2 ≠ s.core →
      left (Purger.step c s.core b).2 < left s.core)
    (ha : a.worker = true) (hne : (step c s a).2 ≠ s) :
    measure left (step c s a).2 < measure left s := by
  cases a with
  | add | stop | stopReturn | notifyAll | wake => cases ha
  | take i =>
    simp only [step, take] at hne ⊢
    split_ifs at hne ⊢ with hasleep
    · exact absurd rfl hne
    by_cases hcore : (Purger.step c s.core (.take i)).2 = s.core
    · rw [hcore] at hne ⊢
      have hsleeps := countP_sleeps (b := decide (s.core.workers[i]? = some .waiting)) hasleep
        fun heq => hne (by rw [heq])
      simp only [measure, List.length_set]
      omega
    · exact measure_core (hleft _ nofun hcore) (Nat.le_succ _) (countP_set_le _ _ _)
        (List.length_set ..) rfl
  | respond i httpCode buffer =>
    have hcore : (Purger.step c s.core (.respond i httpCode buffer)).2 ≠ s.core :=
      fun heq => hne (by simp only [step, heq])
    exact measure_core (hleft _ nofun hcore) (Nat.le_succ _) (Nat.le_succ _) rfl rfl
  | settle i =>
    have hcore : (Purger.step c s.core (.settle i)).2 ≠ s.core :=
      fun heq => hne (by simp [step, settle, heq])
    exact measure_core (hleft _ nofun hcore) (Nat.add_le_add_left (Bool.toNat_le _) _)
      (Nat.le_succ _) rfl rfl
  | notifyOne i =>
    simp only [step, notifyOne] at hne ⊢
    split_ifs at hne ⊢ with hdue hasleep
    · exact absurd rfl hne
    · have hcount := countP_set_le s.asleep i false
      simp only [measure, List.length_set]
      omega
    · exact absurd rfl hne
    · simp only [measure]
      omega

/-- The steps that end a call of `stop` leave less to do, too. -/
theorem ends_measure {left : Purger.State → ℕ}
    (hleft : ∀ b : Purger.Action, (∀ path, b ≠ .add path) → (Purger.step c s.core b).2 ≠ s.core →
      left (Purger.step c s.core b).2 < left s.core)
    (ha : a.ends = true) (hne : (step c s a).2 ≠ s) :
    measure left (step c s a).2 < measure left s := by
  have hworker : a.worker = true → measure left (step c s a).2 < measure left s := fun hw =>
    worker_measure (fun b hb => hleft b fun path heq => hb (heq ▸ rfl)) hw hne
  cases a with
  | add | stop | wake => cases ha
  | take | respond | settle | notifyOne => exact hworker rfl
  | stopReturn =>
    simp only [step, stopReturn] at hne ⊢
    split_ifs at hne ⊢
    · exact absurd rfl hne
    · have hcore : (Purger.step c s.core .stopReturn).2 ≠ s.core := fun heq => hne (by
        rw [show Purger.stopReturn s.core = s.core from heq])
      exact measure_core (hleft .stopReturn (fun _ => nofun) hcore) (Nat.le_succ _) (Nat.le_succ _)
        rfl rfl
  | notifyAll =>
    simp only [step, notifyAll] at hne ⊢
    split_ifs at hne ⊢ with hall
    · have hcount : (s.asleep.map fun _ => false).countP (!·) ≤ s.asleep.length :=
        List.countP_le_length.trans (List.length_map _).le
      simp only [measure, hall, if_true, List.length_map]
      simp only [Bool.false_eq_true, if_false]
      omega
    · exact absurd rfl hne

/-! ## Who can go on -/

/-- A step of a worker that is awake can be taken. -/
theorem exists_action {i : ℕ} (c : Config) (hawake : s.asleep[i]? ≠ some true)
    {b : Purger.Action} (hb : b.worker = some i) :
    ∃ a : Action, a.worker = true ∧ a.ends = true
      ∧ (step c s a).2.core = (Purger.step c s.core b).2 := by
  cases b with
  | add | stop | stopReturn => cases hb
  | take j =>
    obtain rfl : j = i := Option.some.inj hb
    exact ⟨.take j, rfl, rfl, by simp only [step, take, if_neg hawake]⟩
  | respond j httpCode buffer => exact ⟨.respond j httpCode buffer, rfl, rfl, rfl⟩
  | settle j => exact ⟨.settle j, rfl, rfl, rfl⟩

theorem not_moved {i : ℕ} {p q : Phase} {ws : List Phase} (hi : ws[i]? = some p) (hpq : q ≠ p) :
    ws.set i q ≠ ws := by
  intro heq
  have hget : (ws.set i q)[i]? = some p := by rw [heq, hi]
  rw [List.getElem?_set_self (List.getElem?_eq_some_iff.1 hi).1] at hget
  exact hpq (Option.some.inj hget)

/-- While a notification is to come, one can come. -/
theorem due_eq_zero (hnone : ∀ i, notifyOne s i = s) : s.due = 0 := by
  by_contra hdue
  have hless : ∀ i, (notifyOne s i).due = s.due := fun i => by rw [hnone i]
  by_cases hsome : true ∈ s.asleep
  · obtain ⟨i, hi⟩ := List.mem_iff_getElem?.1 hsome
    have hi' := hless i
    simp only [notifyOne, hdue, if_false, hi, if_true] at hi'
    omega
  · have hi : s.asleep[0]? ≠ some true := fun h => hsome (List.mem_of_getElem? h)
    have hi' := hless 0
    simp only [notifyOne, hdue, if_false, hi, hsome] at hi'
    omega

/-- Where no worker goes on and no notification comes, all workers are asleep. -/
theorem all_asleep (hstop : s.core.stopSignal = false) (h : Inv s) (hpresent : Present s.core)
    (hnone : ∀ a : Action, a.worker = true → (step c s a).2 = s) : false ∉ s.asleep := by
  intro hmem
  obtain ⟨i, hi⟩ := List.mem_iff_getElem?.1 hmem
  have hlt : i < s.core.workers.length := h.length ▸ (List.getElem?_eq_some_iff.1 hi).1
  have hawake : s.asleep[i]? ≠ some true := by simp [hi]
  have hworker := List.getElem?_eq_getElem hlt
  obtain ⟨hwait, hq⟩ | ⟨b, hb, q, hpq, hset⟩ := worker_goes c hstop hworker fun heq =>
    hpresent hstop (heq ▸ List.getElem_mem hlt)
  · have hwaits : (Purger.step c s.core (.take i)).2.workers[i]? = some .waiting := by
      have hidle : (Purger.step c s.core (.take i)).2 = Purger.take s.core i := by
        simp only [Purger.step, hworker, hwait]
      obtain ⟨-, heq⟩ | ⟨task, rest, hcons, -⟩ := take_cases hstop i
      · rw [hidle, heq]
        exact List.getElem?_set_self hlt
      · rw [hq] at hcons
        cases hcons
    have hasleep : (step c s (.take i)).2.asleep[i]? = some true := by
      simp only [step, take, if_neg hawake, hwaits, decide_true]
      exact List.getElem?_set_self (h.length ▸ hlt)
    rw [hnone (.take i) rfl] at hasleep
    exact hawake hasleep
  · obtain ⟨a, ha, -, hcore⟩ := exists_action c hawake hb
    rw [hnone a ha] at hcore
    rw [← hcore] at hset
    exact not_moved hworker hpq hset.symm

/-- Everything accepted has been purged or reported. -/
theorem drained (hstop : s.core.stopSignal = false) (h : Inv s) (hpresent : Present s.core)
    (hcrew : s.asleep ≠ []) (hnone : ∀ a : Action, a.worker = true → (step c s a).2 = s) :
    s.core.purgeQueue = [] ∧ s.core.inFlight = [] := by
  have hall := all_asleep hstop h hpresent hnone
  have hdue := due_eq_zero fun i => hnone (.notifyOne i) rfl
  constructor
  · by_contra hq
    rcases h.noticed hstop hcrew hq with hs | hs
    · exact hs hdue
    · exact hall hs
  · refine List.filterMap_eq_nil_iff.2 fun w hw => ?_
    obtain ⟨i, hi⟩ := List.mem_iff_getElem?.1 hw
    have hlt : i < s.asleep.length := h.length ▸ (List.getElem?_eq_some_iff.1 hi).1
    have hasleep : s.asleep[i]? = some true := by
      rcases hb : s.asleep[i] with _ | _
      · exact absurd (hb ▸ List.getElem_mem hlt) hall
      · rw [List.getElem?_eq_getElem hlt, hb]
    rw [h.waiting i hasleep] at hi
    obtain rfl := Option.some.inj hi
    rfl

/-- Where no thread goes on once the signal is set, `stop` has returned. -/
theorem returned (hs : Signalled s.core) (h : Inv s) (hcrew : Crew s.core)
    (hnone : ∀ a : Action, a.ends = true → (step c s a).2 = s) : s.core.stop = .returned := by
  have hall : s.allDue ≠ true := by
    intro hall
    have hsame : (step c s .notifyAll).2.allDue = s.allDue := by rw [hnone .notifyAll rfl]
    simp only [step, notifyAll, hall, if_true] at hsame
    cases hsame
  have hawake : true ∉ s.asleep := (h.signalled hs.signal).resolve_left hall
  have hexited : ∀ p ∈ s.core.workers, p = .exited := by
    intro p hp
    by_contra hne
    obtain ⟨i, hi⟩ := List.mem_iff_getElem?.1 hp
    obtain ⟨b, hb, q, hpq, hset⟩ := worker_leaves c hs hi hne
    obtain ⟨a, -, ha, hcore⟩ :=
      exists_action c (fun hi => hawake (List.mem_of_getElem? hi)) hb
    rw [hnone a ha] at hcore
    rw [← hcore] at hset
    exact not_moved hi hpq hset.symm
  have hrun : s.core.runningWorker = 0 := by
    rw [hcrew.running, List.countP_eq_zero.2 fun p hp => by simp [Phase.running, hexited p hp]]
    rfl
  by_contra hend
  have hwait : s.core.stop = .waiting := by
    rcases hphase : s.core.stop with _ | _ | _
    · exact absurd hphase hs.stop
    · rfl
    · exact absurd hphase hend
  have hsame : (step c s .stopReturn).2.core.stop = s.core.stop := by rw [hnone .stopReturn rfl]
  simp only [step, stopReturn, if_neg hall, Purger.stopReturn, hwait, hrun, and_self, if_true]
    at hsame
  cases hsame

/-! ## Runs -/

theorem core_worker {b : Purger.Action} (ha : a.worker = true) (hb : a.core = some b) :
    b.worker ≠ none := by
  cases a with
  | add | stop | stopReturn | notifyAll | wake => cases ha
  | notifyOne => cases hb
  | take | respond | settle =>
    obtain rfl := Option.some.inj hb
    nofun

/-- What is so of every run of `Purger`'s model is so of these. -/
theorem core_run {I : Purger.State → Prop} (hstart : I (Purger.construct c))
    (hstep : ∀ t b, I t → I (Purger.step c t b).2) (as : List Action) :
    I (run (step c) (construct c) as).2.core :=
  core_invariant (P := fun _ => True) (fun t _ b _ _ h => hstep t b h) (construct c) as
    (fun _ _ => trivial) hstart

theorem run_present (as : List Action) : Present (run (step c) (construct c) as).2.core :=
  core_run (I := Present) (fun _ hmem => by cases List.eq_of_mem_replicate hmem)
    (fun _ b h => step_present c h b) as

theorem measure_le {left : Purger.State → ℕ} {k : ℕ} (hle : left s.core ≤ k) :
    measure left s ≤ 4 * k + 2 * s.due + (if s.allDue then 2 * s.asleep.length + 1
      else s.asleep.length) := by
  have hcount : s.asleep.countP (!·) ≤ s.asleep.length := List.countP_le_length
  rw [measure]
  split <;> omega

/-- While there is no `stop` and nothing is added, and no worker is woken but by a notification: the
workers and the notifications change the state at most sixteen times for each request the tasks may
still have, thirteen times for each worker and twice for each notification to come; and where none
of them can change it, everything that has been accepted has been purged or reported, once. -/
theorem queue_drains (c : Config) (as : List Action) (hthreads : 1 ≤ c.threadMax)
    (hstop : (run (step c) (construct c) as).2.core.stopSignal = false) (more : List Action)
    (hmore : ∀ a ∈ more, a.worker = true) :
    let s := (run (step c) (construct c) as).2
    let last := (run (step c) s more).2
    changes id (step c) s more
        ≤ 16 * (max 1 c.tryMax).toNat * (s.core.purgeQueue.length + s.core.inFlight.length)
          + 13 * s.core.workers.length + 2 * s.due
      ∧ ((∀ a, a.worker = true → (step c last a).2 = last) →
        ((last.core.purged ++ last.core.reported).map Task.occurrence).Perm s.core.accepted) := by
  intro s last
  have hs : Inv s := run_inv c (construct c) as (construct_inv c)
  have hlast : last.core.stopSignal = false ∧ last.core.workers.length = s.core.workers.length
      ∧ last.core.accepted = s.core.accepted :=
    core_invariant (I := fun t => t.stopSignal = false
        ∧ t.workers.length = s.core.workers.length ∧ t.accepted = s.core.accepted)
      (P := fun a => a.worker = true)
      (fun t a b ha hb h =>
        ⟨((step_change c t b).worker_signal (core_worker ha hb)).trans h.1,
          (step_change c t b).length_workers.trans h.2.1,
          ((step_change c t b).accepted fun path heq => core_worker ha hb (heq ▸ rfl)).trans
            h.2.2⟩)
      s more hmore ⟨hstop, rfl, rfl⟩
  have hlength : s.core.workers.length = c.threadMax.toNat :=
    core_run (I := fun t => t.workers.length = c.threadMax.toNat)
      (by simp [Purger.construct])
      (fun t b h => (step_change c t b).length_workers.trans h) as
  have hledger : ∀ as, Ledger c (run (step c) (construct c) as).2.core :=
    core_run (construct_ledger c) fun _ b h => h.step b
  have hruns : last = (run (step c) (construct c) (as ++ more)).2 := by rw [run_append]
  have hok : RunOk (step c) (fun _ a => a.worker = true) s more := RunOk.of_inputs s more hmore
  have hkeeps : ∀ (t : State) (a : Action), t.core.stopSignal = false → a.worker = true →
      (step c t a).2.core.stopSignal = false := by
    intro t a h ha
    obtain heq | ⟨b, hb, heq⟩ := core_step c t a
    · rwa [heq]
    · rw [heq]
      exact ((step_change c t.core b).worker_signal (core_worker ha hb)).trans h
  refine ⟨?_, fun hnone => ?_⟩
  · have hle := changes_le (f := id) (I := fun t => t.core.stopSignal = false)
      (measure (Purger.State.work c)) hkeeps
      (fun t a h ha hne => worker_measure (fun b hb hcore => step_work hb h hcore) ha hne)
      (fun t a _ _ heq => (congrArg (measure (Purger.State.work c)) heq).le) s more hstop hok
    have hwork := measure_le (s := s) (work_le c fun t ht => by
      rw [← (hledger as).requests t ht]
      exact Int.natCast_nonneg _)
    have hall : s.allDue = false := by
      rcases hdue : s.allDue with _ | _
      · rfl
      · exact absurd (hstop.symm.trans (hs.allDue hdue)) Bool.false_ne_true
    rw [hall, if_neg Bool.false_ne_true, hs.length] at hwork
    refine (hle.trans hwork).trans (le_of_eq ?_)
    ring
  · have hinv : Inv last := run_inv c s more hs
    have hcrew : last.asleep ≠ [] := by
      refine List.ne_nil_of_length_pos ?_
      rw [hinv.length, hlast.2.1, hlength]
      omega
    obtain ⟨hqueue, hflight⟩ := drained hlast.1 hinv (hruns ▸ run_present (as ++ more)) hcrew hnone
    have hplaces := (hledger (as ++ more)).places
    rw [← hruns] at hplaces
    rw [← hlast.2.2]
    simpa [State.tasks, hqueue, hflight] using hplaces

/-- One worker, asleep, and one path, that is requested once and reported. -/
theorem queue_drains_one :
    let c : Config := ⟨1, 1, 1⟩
    let s := (run (step c) (construct c) [.take 0, .add [97]]).2
    let more : List Action := [.notifyOne 0, .take 0, .respond 0 500 [], .settle 0, .take 0]
    let last := (run (step c) s more).2
    changes id (step c) s more
        ≤ 16 * (max 1 c.tryMax).toNat * (s.core.purgeQueue.length + s.core.inFlight.length)
          + 13 * s.core.workers.length + 2 * s.due
      ∧ ((∀ a, a.worker = true → (step c last a).2 = last) →
        ((last.core.purged ++ last.core.reported).map Task.occurrence).Perm s.core.accepted) :=
  queue_drains ⟨1, 1, 1⟩ [.take 0, .add [97]] (by decide) (by decide) _ (by decide)

/-- Once `stop` has set the signal, no task is taken, whatever happens. While nothing is added, and
no worker is woken but by a notification, the purger's threads change the state at most fourteen
times for each worker, twice for each notification to come and five times more; and where none of
them can change it, `stop` has returned. -/
theorem stop_settles (c : Config) (as : List Action)
    (hstop : (run (step c) (construct c) as).2.core.stopSignal = true) :
    let s := (run (step c) (construct c) as).2
    (∀ more, (run (step c) s more).2.core.attempts = s.core.attempts)
      ∧ ∀ more, (∀ a ∈ more, a.ends = true) →
        changes id (step c) s more ≤ 14 * s.core.workers.length + 2 * s.due + 5
          ∧ ((∀ a, a.ends = true →
              (step c (run (step c) s more).2 a).2 = (run (step c) s more).2) →
            (run (step c) s more).2.core.stop = .returned) := by
  intro s
  have hs : Inv s := run_inv c (construct c) as (construct_inv c)
  have hsignalled : Signalled s.core :=
    ⟨hstop, core_run (I := Announced) (fun h => by cases h)
      (fun t b h => (step_change c t b).announced h) as hstop⟩
  have hrun : ∀ more, Signalled (run (step c) s more).2.core
      ∧ (run (step c) s more).2.core.attempts = s.core.attempts := fun more =>
    core_invariant (I := fun t => Signalled t ∧ t.attempts = s.core.attempts)
      (P := fun _ => True)
      (fun t a b _ _ h =>
        ⟨((step_change c t b).signalled h.1).1, ((step_change c t b).signalled h.1).2.trans h.2⟩)
      s more (fun _ _ => trivial) ⟨hsignalled, rfl⟩
  refine ⟨fun more => (hrun more).2, fun more hmore => ⟨?_, fun hnone => ?_⟩⟩
  · have hok : RunOk (step c) (fun _ a => a.ends = true) s more := RunOk.of_inputs s more hmore
    have hkeeps : ∀ (t : State) (a : Action), Signalled t.core → a.ends = true →
        Signalled (step c t a).2.core := by
      intro t a h _
      obtain heq | ⟨b, -, heq⟩ := core_step c t a
      · rwa [heq]
      · rw [heq]
        exact ((step_change c t.core b).signalled h).1
    have hle := changes_le (f := id) (I := fun t => Signalled t.core) (measure Purger.State.left)
      hkeeps (fun t a h ha hne => ends_measure (fun b hb hcore => left_step h hb hcore) ha hne)
      (fun t a _ _ heq => (congrArg (measure Purger.State.left) heq).le)
      s more hsignalled hok
    have hleft := measure_le (s := s) (left_le s.core)
    rw [hs.length] at hleft
    refine (hle.trans hleft).trans ?_
    split <;> omega
  · have hcrew : Crew (run (step c) s more).2.core :=
      core_invariant (P := fun _ => True) (fun t _ b _ _ h => h.step c b) s more
        (fun _ _ => trivial) (core_run (construct_crew c) (fun t b h => h.step c b) as)
    exact returned (hrun more).1 (run_inv c s more hs) hcrew hnone

/-- One worker, asleep, that is notified and leaves. -/
theorem stop_settles_one :
    let c : Config := ⟨1, 1, 1⟩
    let s := (run (step c) (construct c) [.take 0, .stop]).2
    (∀ more, (run (step c) s more).2.core.attempts = s.core.attempts)
      ∧ ∀ more, (∀ a ∈ more, a.ends = true) →
        changes id (step c) s more ≤ 14 * s.core.workers.length + 2 * s.due + 5
          ∧ ((∀ a, a.ends = true →
              (step c (run (step c) s more).2 a).2 = (run (step c) s more).2) →
            (run (step c) s more).2.core.stop = .returned) :=
  stop_settles ⟨1, 1, 1⟩ [.take 0, .stop] (by decide)

end Waking

end Purger

end XCache
