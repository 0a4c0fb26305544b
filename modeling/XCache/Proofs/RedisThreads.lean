import XCache.RedisThreads

/-!
# Teardown after the event loop

Whoever has `connect_lock` has it alone, so `uninit` finds `running` as `connect` has left it
(`Locked`). Where it waits, that is no longer enough: the wait ends at any wakeup, and between the
wakeup and the lock `connect` may be entered again. With neither (`Careful`), `free` is executed
when the event loop is over; each of the two can be followed by a `free` while it runs
(`torn_down_iff`). The steps between the locks are those of `SubManager.step` (`run_linear`).
-/

namespace XCache

namespace SubManager.Threads

namespace ConnectPhase

/-- The thread has `connect_lock`. -/
def holds : ConnectPhase → Bool
  | .checking | .opening | .failing _ | .unlocking | .ending | .notifying _ | .leaving _ => true
  | .outside | .locking | .dispatching | .relocking => false

/-- `running` is set. -/
def runs : ConnectPhase → Bool
  | .opening | .failing _ | .unlocking | .dispatching | .relocking | .ending => true
  | .outside | .locking | .checking | .notifying _ | .leaving _ => false

/-- `redis->connect()` has returned no error, and `running` is set. -/
def connected : ConnectPhase → Bool
  | .unlocking | .dispatching | .relocking | .ending => true
  | .outside | .locking | .checking | .opening | .failing _ | .notifying _ | .leaving _ => false

/-- The thread is on its way from the event loop to its notification. -/
def toNotify : ConnectPhase → Bool
  | .dispatching | .relocking | .ending | .notifying _ => true
  | .outside | .locking | .checking | .opening | .failing _ | .unlocking | .leaving _ => false

/-- The event loop is over, and the thread has not locked `connect_lock` for the next one. -/
def done : ConnectPhase → Bool
  | .ending | .notifying _ | .leaving _ | .outside | .locking => true
  | .checking | .opening | .failing _ | .unlocking | .dispatching | .relocking => false

theorem connected_of_runs {c : ConnectPhase} (h : c.runs = true) (hfree : c.holds = false) :
    c.connected = true := by
  cases c <;> simp_all [runs, holds, connected]

theorem not_connected {c : ConnectPhase} (h : c.runs = false) : c.connected = false := by
  cases c <;> simp_all [runs, connected]

end ConnectPhase

namespace UninitPhase

/-- The thread has `connect_lock`. -/
def holds : UninitPhase → Bool
  | .checking | .disconnecting | .blocking | .freeingWoken | .freeing | .leaving => true
  | .outside | .locking | .asleep | .woken => false

/-- The thread is to free `redis`. -/
def toFree : UninitPhase → Bool
  | .disconnecting | .blocking | .asleep | .woken | .freeingWoken | .freeing => true
  | .outside | .locking | .checking | .leaving => false

/-- The thread has found `running` set, and is not asleep yet. -/
def toSleep : UninitPhase → Bool
  | .disconnecting | .blocking => true
  | .outside | .locking | .checking | .asleep | .woken | .freeingWoken | .freeing | .leaving =>
    false

/-- The thread is between its `redis->disconnect()` and the `free()` after the wait. -/
def waits : UninitPhase → Bool
  | .blocking | .asleep | .woken | .freeingWoken => true
  | .outside | .locking | .checking | .disconnecting | .freeing | .leaving => false

end UninitPhase

/-! ## The lock -/

/-- What the lock keeps, in every run. -/
structure Locked (s : State) : Prop where
  connectHolds : s.connectLock = some .connect ↔ s.connect.holds = true
  uninitHolds : s.connectLock = some .uninit ↔ s.uninit.holds = true
  running : s.manager.running = s.connect.runs
  redis : s.uninit.toFree = true → s.manager.redis = true
  set : s.uninit.toSleep = true → s.connect.runs = true
  cleared : s.uninit = .freeing → s.connect.runs = false
  opening : s.connect = .opening → s.manager.redis = true

variable {s s' : State}

theorem start_locked (m : SubManager.State) : Locked (start m) where
  connectHolds := by simp [start, ConnectPhase.holds]
  uninitHolds := by simp [start, UninitPhase.holds]
  running := rfl
  redis := nofun
  set := nofun
  cleared := nofun
  opening := nofun

theorem UninitPhase.holds_of_toSleep {u : UninitPhase} (h : u.toSleep = true) : u.holds = true := by
  cases u <;> simp_all [UninitPhase.toSleep, UninitPhase.holds]

namespace Locked

theorem connect_free (h : Locked s) (hu : s.uninit.holds = true) : s.connect.holds = false := by
  rw [← Bool.not_eq_true]
  intro hc
  have hu := h.uninitHolds.2 hu
  rw [h.connectHolds.2 hc] at hu
  simp at hu

theorem lock_free (h : Locked s) (hc : s.connect.holds = false) (hu : s.uninit.holds = false) :
    s.connectLock = none := by
  rcases hl : s.connectLock with _ | _ | _
  · rfl
  · simp [h.connectHolds.1 hl] at hc
  · simp [h.uninitHolds.1 hl] at hu

/-- A step of `connect`: where `uninit` has the lock, it leaves `running` alone. -/
theorem of_connect (h : Locked s)
    (huninit : s'.uninit = s.uninit ∨ s.uninit = .asleep ∧ s'.uninit = .woken)
    (hredis : s'.manager.redis = s.manager.redis) (hrunning : s'.manager.running = s'.connect.runs)
    (hconnect : s'.connectLock = some .connect ↔ s'.connect.holds = true)
    (hlock : s'.connectLock = some .uninit ↔ s.connectLock = some .uninit)
    (hruns : s.uninit.holds = true → s'.connect.runs = s.connect.runs)
    (hopening : s'.connect = .opening → s'.manager.redis = true) : Locked s' := by
  rcases huninit with hu | ⟨hu, hu'⟩
  · refine ⟨hconnect, ?_, hrunning, fun hf => ?_, fun hs => ?_, fun hf => ?_, hopening⟩
    · rw [hlock, hu]
      exact h.uninitHolds
    · rw [hredis]
      exact h.redis (hu ▸ hf)
    · rw [hu] at hs
      rw [hruns (UninitPhase.holds_of_toSleep hs)]
      exact h.set hs
    · rw [hu] at hf
      rw [hruns (by rw [hf]; rfl)]
      exact h.cleared hf
  · refine ⟨hconnect, ?_, hrunning, fun _ => ?_, fun hs => ?_, fun hf => ?_, hopening⟩
    · rw [hlock, hu', h.uninitHolds, hu]
      simp [UninitPhase.holds]
    · rw [hredis]
      exact h.redis (by rw [hu]; rfl)
    · simp [hu', UninitPhase.toSleep] at hs
    · simp [hu'] at hf

section Connect

variable {p : ConnectPhase}

/-- `connect` goes on, and writes neither `running` nor the lock. -/
theorem connect_moves (h : Locked s) (hredis : s'.manager.redis = s.manager.redis)
    (hrunning : s'.manager.running = s.manager.running) (hlock : s'.connectLock = s.connectLock)
    (huninit : s'.uninit = s.uninit ∨ s.uninit = .asleep ∧ s'.uninit = .woken)
    (hholds : s'.connect.holds = s.connect.holds) (hruns : s'.connect.runs = s.connect.runs)
    (hopening : s'.connect ≠ .opening) : Locked s' := by
  refine h.of_connect huninit hredis ?_ ?_ (by rw [hlock]) (fun _ => hruns)
    fun hp => absurd hp hopening
  · rw [hrunning, h.running, hruns]
  · rw [hlock, h.connectHolds, hholds]

theorem connect_locks (h : Locked s) (hl : s.connectLock = none) (hp : p.holds = true)
    (hruns : p.runs = s.connect.runs) (hopening : p ≠ .opening) :
    Locked { s with connectLock := some .connect, connect := p } := by
  refine h.of_connect (.inl rfl) rfl ?_ ?_ ?_ (fun _ => hruns) fun hp => absurd hp hopening
  · rw [h.running, hruns]
  · simp [hp]
  · simp [hl]

theorem connect_unlocks (h : Locked s) (hc : s.connect.holds = true) (hp : p.holds = false)
    (hruns : p.runs = s.connect.runs) (hopening : p ≠ .opening) :
    Locked { s with connectLock := none, connect := p } := by
  have hl := h.connectHolds.2 hc
  refine h.of_connect (.inl rfl) rfl ?_ ?_ ?_ (fun _ => hruns) fun hp => absurd hp hopening
  · rw [h.running, hruns]
  · simp [hp]
  · simp [hl]

/-- `connect` writes `running`, with the lock. -/
theorem connect_sets {b : Bool} (h : Locked s) (hc : s.connect.holds = true) (hp : p.holds = true)
    (hb : b = p.runs) (hopening : p = .opening → s.manager.redis = true) :
    Locked { s with manager := s.setRunning b, connect := p } := by
  refine h.of_connect (.inl rfl) rfl hb ?_ Iff.rfl (fun hu => ?_) hopening
  · rw [h.connectHolds, hc, hp]
  · have := h.connect_free hu
    simp [hc] at this

end Connect

theorem redisConnect_frame (m : SubManager.State) (o : Opening) :
    (redisConnect m o).2.2.redis = m.redis ∧ (redisConnect m o).2.2.running = m.running := by
  unfold redisConnect
  rcases o with _ | ⟨err, _ | err'⟩
  · exact ⟨rfl, rfl⟩
  all_goals
    dsimp only
    split_ifs <;> exact ⟨rfl, rfl⟩

theorem connectStep (h : Locked s) (o : Opening) : Locked (connectStep s o).2 := by
  unfold Threads.connectStep
  cases hc : s.connect with
  | outside =>
    exact h.connect_moves rfl rfl rfl (.inl rfl) (by rw [hc]; rfl) (by rw [hc]; rfl) nofun
  | locking =>
    dsimp only
    split_ifs with hl
    · exact h.connect_locks hl rfl (by rw [hc]; rfl) nofun
    · exact h
  | checking =>
    dsimp only
    split_ifs with hr
    · exact h.connect_moves rfl rfl rfl (.inl rfl) (by rw [hc]; rfl) (by rw [hc]; rfl) nofun
    · exact h.connect_sets (by rw [hc]; rfl) rfl rfl fun _ => Bool.not_eq_false _ ▸ hr
  | opening =>
    obtain ⟨hredis, hrunning⟩ := redisConnect_frame s.manager o
    dsimp only
    split_ifs <;>
      exact h.connect_moves hredis hrunning rfl (.inl rfl) (by rw [hc]; rfl) (by rw [hc]; rfl) nofun
  | failing res => exact h.connect_sets (by rw [hc]; rfl) rfl rfl nofun
  | unlocking => exact h.connect_unlocks (by rw [hc]; rfl) rfl (by rw [hc]; rfl) nofun
  | dispatching =>
    exact h.connect_moves rfl rfl rfl (.inl rfl) (by rw [hc]; rfl) (by rw [hc]; rfl) nofun
  | relocking =>
    dsimp only
    split_ifs with hl
    · exact h.connect_locks hl rfl (by rw [hc]; rfl) nofun
    · exact h
  | ending => exact h.connect_sets (by rw [hc]; rfl) rfl rfl nofun
  | notifying ret =>
    refine h.connect_moves rfl rfl rfl ?_ (by rw [hc]; rfl) (by rw [hc]; rfl) nofun
    by_cases hu : s.uninit = .asleep
    · exact .inr ⟨hu, by simp [hu]⟩
    · exact .inl (by simp [hu])
  | leaving ret => exact h.connect_unlocks (by rw [hc]; rfl) rfl (by rw [hc]; rfl) nofun

/-- A step of `uninit`, which leaves `running` alone. -/
theorem of_uninit (h : Locked s) (hconnect : s'.connect = s.connect)
    (hrunning : s'.manager.running = s.manager.running)
    (hlock : s'.connectLock = some .connect ↔ s.connectLock = some .connect)
    (huninit : s'.connectLock = some .uninit ↔ s'.uninit.holds = true)
    (hredis : s'.uninit.toFree = true → s'.manager.redis = true)
    (hset : s'.uninit.toSleep = true → s.connect.runs = true)
    (hcleared : s'.uninit = .freeing → s.connect.runs = false)
    (hopening : s.connect = .opening → s'.manager.redis = true) : Locked s' := by
  refine ⟨?_, huninit, ?_, hredis, ?_, ?_, ?_⟩
  · rw [hlock, hconnect]
    exact h.connectHolds
  · rw [hrunning, hconnect]
    exact h.running
  · rwa [hconnect]
  · rwa [hconnect]
  · rwa [hconnect]

section Uninit

variable {p : UninitPhase}

theorem uninit_moves (h : Locked s) (hholds : p.holds = s.uninit.holds)
    (hredis : p.toFree = true → s.manager.redis = true)
    (hset : p.toSleep = true → s.connect.runs = true)
    (hcleared : p = .freeing → s.connect.runs = false) : Locked { s with uninit := p } := by
  refine h.of_uninit rfl rfl Iff.rfl ?_ hredis hset hcleared h.opening
  rw [hholds]
  exact h.uninitHolds

theorem uninit_locks (h : Locked s) (hl : s.connectLock = none) (hp : p.holds = true)
    (hredis : p.toFree = true → s.manager.redis = true) (hset : p.toSleep ≠ true)
    (hcleared : p ≠ .freeing) : Locked { s with connectLock := some .uninit, uninit := p } :=
  h.of_uninit rfl rfl (by simp [hl]) (by simp [hp]) hredis (fun hs => absurd hs hset)
    (fun hf => absurd hf hcleared) h.opening

theorem uninit_unlocks (h : Locked s) (hu : s.uninit.holds = true) (hp : p.holds = false)
    (hredis : p.toFree = true → s.manager.redis = true) (hset : p.toSleep ≠ true)
    (hcleared : p ≠ .freeing) : Locked { s with connectLock := none, uninit := p } := by
  have hl := h.uninitHolds.2 hu
  exact h.of_uninit rfl rfl (by simp [hl]) (by simp [hp]) hredis (fun hs => absurd hs hset)
    (fun hf => absurd hf hcleared) h.opening

theorem uninit_frees (h : Locked s) (hu : s.uninit.holds = true) :
    Locked { s with manager := managerFree s.manager, uninit := .leaving } := by
  have hfree := h.connect_free hu
  refine h.of_uninit rfl rfl Iff.rfl ?_ nofun nofun nofun fun hp => ?_
  · rw [h.uninitHolds, hu]
    rfl
  · rw [hp] at hfree
    exact absurd hfree nofun

end Uninit

theorem uninitStep (h : Locked s) : Locked (uninitStep s).2 := by
  unfold Threads.uninitStep
  cases hu : s.uninit with
  | outside => exact h.uninit_moves (by rw [hu]; rfl) nofun nofun nofun
  | locking =>
    dsimp only
    split_ifs with hl
    · exact h.uninit_locks hl rfl nofun nofun nofun
    · exact h
  | checking =>
    dsimp only
    split_ifs with hr hrun
    · exact h.uninit_moves (by rw [hu]; rfl) nofun nofun nofun
    · have hr := Bool.not_eq_false _ ▸ hr
      refine h.uninit_moves (by rw [hu]; rfl) (fun _ => hr) (fun _ => ?_) nofun
      rw [← h.running]
      exact hrun
    · have hr := Bool.not_eq_false _ ▸ hr
      refine h.uninit_moves (by rw [hu]; rfl) (fun _ => hr) nofun fun _ => ?_
      rw [← h.running]
      exact Bool.eq_false_iff.2 hrun
  | disconnecting =>
    exact h.uninit_moves (by rw [hu]; rfl) (fun _ => h.redis (by rw [hu]; rfl))
      (fun _ => h.set (by rw [hu]; rfl)) nofun
  | blocking =>
    exact h.uninit_unlocks (by rw [hu]; rfl) rfl (fun _ => h.redis (by rw [hu]; rfl)) nofun nofun
  | asleep => exact h
  | woken =>
    dsimp only
    split_ifs with hl
    · exact h.uninit_locks hl rfl (fun _ => h.redis (by rw [hu]; rfl)) nofun nofun
    · exact h
  | freeingWoken => exact h.uninit_frees (by rw [hu]; rfl)
  | freeing => exact h.uninit_frees (by rw [hu]; rfl)
  | leaving => exact h.uninit_unlocks (by rw [hu]; rfl) rfl nofun nofun nofun

theorem of_manager (h : Locked s) {m : SubManager.State} (hredis : m.redis = s.manager.redis)
    (hrunning : m.running = s.manager.running) : Locked { s with manager := m } :=
  ⟨h.connectHolds, h.uninitHolds, hrunning.trans h.running, fun hf => hredis.trans (h.redis hf),
    h.set, h.cleared, fun hp => hredis.trans (h.opening hp)⟩

theorem step (h : Locked s) (a : Action) : Locked (step s a).2 := by
  cases a with
  | connect o => exact h.connectStep o
  | uninit => exact h.uninitStep
  | wake =>
    simp only [Threads.step]
    split_ifs with hu
    · exact h.uninit_moves (by rw [hu]; rfl) (fun _ => h.redis (by rw [hu]; rfl)) nofun nofun
    · exact h
  | connectCallback c ok =>
    refine h.of_manager ?_ ?_ <;> (unfold connectCallback; split_ifs <;> rfl)
  | disconnectCallback c ok =>
    refine h.of_manager ?_ ?_ <;> (unfold disconnectCallback; split_ifs <;> rfl)

end Locked

/-! ## The wait -/

/-- What is asked of the interleaving: `cv.wait` wakes without a notification only when `connect`
has locked `connect_lock` again after its event loop, and `connect` does not lock it for the next
one while `uninit` is on its way out of `cv.wait`. -/
def Careful (s : State) : Action → Prop
  | .wake => s.uninit = .asleep → s.connect ≠ .dispatching ∧ s.connect ≠ .relocking
  | .connect _ => s.connect = .locking → s.connectLock = none → s.uninit ≠ .woken
  | .uninit | .connectCallback _ _ | .disconnectCallback _ _ => True

instance (s : State) : (a : Action) → Decidable (Careful s a)
  | .wake => inferInstanceAs (Decidable (_ → _ ∧ _))
  | .connect _ => inferInstanceAs (Decidable (_ → _ → _))
  | .uninit | .connectCallback _ _ | .disconnectCallback _ _ => inferInstanceAs (Decidable True)

/-- Where `free` is executed, the event loop has ended. -/
def TornDown (s : State) (a : Action) : Prop :=
  (step s a).1.freed = true → s.manager.running = false ∧ s.connect ≠ .dispatching

instance (s : State) (a : Action) : Decidable (TornDown s a) :=
  inferInstanceAs (Decidable (_ → _ ∧ _))

/-- `uninit` sleeps until `connect` notifies it, and finds the event loop over when it has woken. -/
structure Waits (s : State) : Prop where
  asleep : s.uninit = .asleep → s.connect.toNotify = true
  woken : s.uninit = .woken ∨ s.uninit = .freeingWoken → s.connect.done = true

structure Inv (s : State) : Prop where
  locked : Locked s
  waits : Waits s

theorem start_inv (m : SubManager.State) : Inv (start m) :=
  ⟨start_locked m, nofun, by simp [start]⟩

/-- `connect` leaves `uninit` alone, but for the notification. -/
theorem connectStep_uninit (s : State) (o : Opening) :
    ((connectStep s o).2.uninit = s.uninit
        ∧ (s.uninit = .asleep → ∀ ret, s.connect ≠ .notifying ret))
      ∨ s.uninit = .asleep ∧ (connectStep s o).2.uninit = .woken
        ∧ (connectStep s o).2.connect.done = true := by
  unfold connectStep
  cases hc : s.connect with
  | notifying ret =>
    by_cases hu : s.uninit = .asleep
    · exact .inr ⟨hu, by simp [hu], rfl⟩
    · exact .inl ⟨by simp [hu], fun h => absurd h hu⟩
  | locking => exact .inl ⟨by dsimp only; split_ifs <;> rfl, nofun⟩
  | checking => exact .inl ⟨by dsimp only; split_ifs <;> rfl, nofun⟩
  | relocking => exact .inl ⟨by dsimp only; split_ifs <;> rfl, nofun⟩
  | outside | opening | failing _ | unlocking | dispatching | ending | leaving _ =>
    exact .inl ⟨rfl, nofun⟩

theorem toNotify_connectStep (o : Opening) (hto : s.connect.toNotify = true)
    (hn : ∀ ret, s.connect ≠ .notifying ret) : (connectStep s o).2.connect.toNotify = true := by
  unfold connectStep
  cases hc : s.connect with
  | dispatching => rfl
  | relocking =>
    dsimp only
    split_ifs
    · rfl
    · simp [hc, ConnectPhase.toNotify]
  | ending => rfl
  | notifying ret => exact absurd hc (hn ret)
  | outside | locking | checking | opening | failing _ | unlocking | leaving _ =>
    simp [hc, ConnectPhase.toNotify] at hto

theorem done_connectStep (o : Opening) (hdone : s.connect.done = true)
    (hl : s.connect = .locking → s.connectLock ≠ none) :
    (connectStep s o).2.connect.done = true := by
  unfold connectStep
  cases hc : s.connect with
  | outside | ending | notifying _ | leaving _ => rfl
  | locking => simp [hl hc, hc, ConnectPhase.done]
  | checking | opening | failing _ | unlocking | dispatching | relocking =>
    simp [hc, ConnectPhase.done] at hdone

theorem Inv.connectStep (h : Inv s) (o : Opening) (hcareful : Careful s (.connect o)) :
    Inv (connectStep s o).2 := by
  refine ⟨h.locked.connectStep o, fun hu => ?_, fun hu => ?_⟩
  · rcases connectStep_uninit s o with ⟨hsame, hn⟩ | ⟨-, hwoken, -⟩
    · have ha := hsame.symm.trans hu
      exact toNotify_connectStep o (h.waits.asleep ha) (hn ha)
    · simp [hwoken] at hu
  · rcases connectStep_uninit s o with ⟨hsame, -⟩ | ⟨-, -, hdone⟩
    · rw [hsame] at hu
      refine done_connectStep o (h.waits.woken hu) fun hc hl => ?_
      rcases hu with hu | hu
      · exact hcareful hc hl hu
      · have := h.locked.uninitHolds.2 (by rw [hu]; rfl)
        simp [hl] at this
    · exact hdone

theorem Inv.uninitStep (h : Inv s) : Inv (uninitStep s).2 := by
  refine ⟨h.locked.uninitStep, ?_⟩
  unfold Threads.uninitStep
  cases hu : s.uninit with
  | blocking =>
    refine ⟨fun _ => ?_, by simp⟩
    have hruns := h.locked.set (by rw [hu]; rfl)
    have hfree := h.locked.connect_free (by rw [hu]; rfl)
    show s.connect.toNotify = true
    cases hc : s.connect <;> simp_all [ConnectPhase.runs, ConnectPhase.holds, ConnectPhase.toNotify]
  | asleep => exact ⟨h.waits.asleep, h.waits.woken⟩
  | woken =>
    dsimp only
    split_ifs
    · exact ⟨nofun, fun _ => h.waits.woken (.inl hu)⟩
    · exact ⟨h.waits.asleep, h.waits.woken⟩
  | locking =>
    dsimp only
    split_ifs <;> exact ⟨by simp [hu], by simp [hu]⟩
  | checking =>
    dsimp only
    split_ifs <;> exact ⟨by simp, by simp⟩
  | outside | disconnecting | freeingWoken | freeing | leaving => exact ⟨by simp, by simp⟩

theorem step_inv (s : State) (a : Action) (h : Inv s) (hc : Careful s a) : Inv (step s a).2 := by
  cases a with
  | connect o => exact h.connectStep o hc
  | uninit => exact h.uninitStep
  | wake =>
    refine ⟨h.locked.step .wake, ?_⟩
    simp only [step]
    split_ifs with hu
    · refine ⟨nofun, fun _ => ?_⟩
      obtain ⟨hd, hr⟩ := hc hu
      have hto := h.waits.asleep hu
      show s.connect.done = true
      cases hp : s.connect <;> simp_all [ConnectPhase.toNotify, ConnectPhase.done]
    · exact ⟨h.waits.asleep, h.waits.woken⟩
  | connectCallback c ok =>
    exact ⟨h.locked.step (.connectCallback c ok), h.waits.asleep, h.waits.woken⟩
  | disconnectCallback c ok =>
    exact ⟨h.locked.step (.disconnectCallback c ok), h.waits.asleep, h.waits.woken⟩

theorem step_freed {a : Action} (h : (step s a).1.freed = true) :
    a = .uninit ∧ (s.uninit = .freeingWoken ∨ s.uninit = .freeing) := by
  cases a with
  | connect o =>
    simp only [step, connectStep] at h
    split at h <;> (try split at h) <;> simp [quiet] at h
  | uninit =>
    refine ⟨rfl, ?_⟩
    simp only [step, uninitStep] at h
    cases hu : s.uninit with
    | freeingWoken => exact .inl rfl
    | freeing => exact .inr rfl
    | locking => simp only [hu] at h; split at h <;> simp [quiet] at h
    | checking => simp only [hu] at h; split_ifs at h <;> simp [quiet] at h
    | woken => simp only [hu] at h; split at h <;> simp [quiet] at h
    | outside => simp [hu, quiet] at h
    | disconnecting => simp [hu] at h
    | blocking => simp [hu, quiet] at h
    | asleep => simp [hu, quiet] at h
    | leaving => simp [hu] at h
  | wake => simp [step, quiet] at h
  | connectCallback c ok => simp [step, quiet] at h
  | disconnectCallback c ok => simp [step, quiet] at h

theorem Inv.tornDown (h : Inv s) (a : Action) : TornDown s a := by
  intro hf
  obtain ⟨-, hu⟩ := step_freed hf
  have hc : s.connect.holds = false := by
    refine h.locked.connect_free ?_
    rcases hu with hu | hu <;> rw [hu] <;> rfl
  have hruns : s.connect.runs = false := by
    rcases hu with hu | hu
    · have hdone := h.waits.woken (.inr hu)
      cases hp : s.connect <;> simp_all [ConnectPhase.holds, ConnectPhase.done, ConnectPhase.runs]
    · exact h.locked.cleared hu
  refine ⟨h.locked.running.trans hruns, fun hp => ?_⟩
  rw [hp] at hruns
  exact absurd hruns nofun

theorem run_tornDown (m : SubManager.State) (is : List Action)
    (h : RunOk step Careful (start m) is) : RunOk step TornDown (start m) is := by
  refine runOk_of_outputs (I := Inv) (O := fun _ => True) (fun s a hs hc _ => step_inv s a hs hc)
    (fun s a hs _ _ => hs.tornDown a) (start m) is (start_inv m) h fun _ _ => trivial

/-! ### What an interleaving that is not careful leads to -/

/-- `uninit` is about to free what the event loop may be running on. -/
def Broken (s : State) : Prop := s.uninit = .freeingWoken ∧ s.manager.running = true

theorem not_tornDown (m : SubManager.State) (is : List Action)
    (h : Broken (run step (start m) is).2) :
    ∃ more, RunOk step Careful (run step (start m) is).2 more
      ∧ ¬ RunOk step TornDown (start m) (is ++ more) := by
  refine ⟨[.uninit], ⟨trivial, trivial⟩, fun hr => ?_⟩
  have hlast := (runOk_append.1 hr).2.1 (by simp [step, uninitStep, h.1])
  simp [h.2] at hlast

theorem leads_of_running (hu : s.uninit = .woken) (hl : s.connectLock = none)
    (hrunning : s.manager.running = true) : LeadsTo step Careful Broken s := by
  refine .of_step (i := .uninit) trivial (.here ?_)
  simp [step, uninitStep, hu, hl, Broken, hrunning]

theorem leads_of_connect (hu : s.uninit = .woken) (hredis : s.manager.redis = true) :
    LeadsTo step Careful Broken { s with connectLock := some .connect, connect := .checking } := by
  refine .of_run [.connect .null, .connect (.context 0 none), .connect .null]
    (by simp [RunOk, Careful, step, connectStep, redisConnect, hredis]) ?_
  refine leads_of_running ?_ ?_ ?_ <;>
    simp [step, connectStep, redisConnect, State.setRunning, hredis, hu]

theorem leads (h : Inv s) {a : Action} (hc : ¬ Careful s a) :
    LeadsTo step Careful Broken (step s a).2 := by
  cases a with
  | wake =>
    simp only [Careful, Classical.not_imp, not_and_or, not_not] at hc
    obtain ⟨hu, hp⟩ := hc
    have hwake : (step s .wake).2 = { s with uninit := .woken } := by simp [step, hu]
    rw [hwake]
    refine leads_of_running rfl (h.locked.lock_free ?_ ?_) (h.locked.running.trans ?_)
    · rcases hp with hp | hp <;> simp [hp, ConnectPhase.holds]
    · simp [hu, UninitPhase.holds]
    · rcases hp with hp | hp <;> simp [hp, ConnectPhase.runs]
  | connect o =>
    simp only [Careful, Classical.not_imp, not_not] at hc
    obtain ⟨hp, hl, hu⟩ := hc
    have hstep : (step s (.connect o)).2
        = { s with connectLock := some .connect, connect := .checking } := by
      simp [step, connectStep, hp, hl]
    rw [hstep]
    exact leads_of_connect hu (h.locked.redis (by simp [hu, UninitPhase.toFree]))
  | uninit => exact absurd trivial hc
  | connectCallback c ok => exact absurd trivial hc
  | disconnectCallback c ok => exact absurd trivial hc

/-- In an interleaving of careful steps `free` is executed only after the event loop. It stays so
whatever careful steps follow, exactly as long as the next step is careful. -/
theorem torn_down_iff (m : SubManager.State) (is : List Action)
    (h : RunOk step Careful (start m) is) :
    RunOk step TornDown (start m) is ∧ ∀ a, Careful (run step (start m) is).2 a ↔
      ∀ more, RunOk step Careful (step (run step (start m) is).2 a).2 more →
        RunOk step TornDown (start m) (is ++ a :: more) :=
  run_exact (run_tornDown m) (not_tornDown m)
    (fun is _ h => leads (run_invariant step_inv (start m) is (start_inv m) h)) is h

/-- `uninit` waits for the event loop, wakes by itself before it is notified, and frees. -/
theorem torn_down_iff_nineteen :
    let o : Action := .connect (.context 0 none)
    let is : List Action := [o, o, o, o, o, .uninit, .uninit, .uninit, .uninit, .uninit, o, o,
      .wake, o, o, o, .uninit, .uninit, .uninit]
    RunOk step TornDown (start construct) is
      ∧ ∀ a, Careful (run step (start construct) is).2 a ↔
        ∀ more, RunOk step Careful (step (run step (start construct) is).2 a).2 more →
          RunOk step TornDown (start construct) (is ++ a :: more) :=
  torn_down_iff construct _ (by decide)

/-- `uninit` wakes by itself and frees what the event loop runs on; and `connect`, entered again
before `uninit` has the lock, runs its second event loop when it does. -/
theorem freed_while_running :
    let o : Action := .connect (.context 0 none)
    ¬ RunOk step TornDown (start construct)
        [o, o, o, o, o, .uninit, .uninit, .uninit, .uninit, .uninit, .wake, .uninit, .uninit]
      ∧ ¬ RunOk step TornDown (start construct)
        [o, o, o, o, o, .uninit, .uninit, .uninit, .uninit, .uninit, o, o, o, o, o, o, o, o, o, o,
          .uninit, .uninit] := by
  decide

/-! ## The sections under the lock, taken whole -/

/-- What has taken effect, as the sections under the lock go: `running` counts once
`redis->connect()` has returned no error. -/
def whole (s : State) : SubManager.State :=
  { s.manager with
    running := s.connect.connected
    dispatching := s.connect.connected
    waiting := s.uninit.waits }

/-- The sections that take effect with a step. -/
def linear (s : State) : Action → List SubManager.Action
  | .connect o =>
    match s.connect with
    | .checking => if s.manager.redis = false then [.connect o] else []
    | .opening => [.connect o]
    | .ending => [.connectEnd]
    | .outside | .locking | .failing _ | .unlocking | .dispatching | .relocking | .notifying _
    | .leaving _ => []
  | .uninit =>
    match s.uninit with
    | .checking => if s.manager.redis = false then [.uninit] else []
    | .disconnecting | .freeing => [.uninit]
    | .freeingWoken => [.wake]
    | .outside | .locking | .blocking | .asleep | .woken | .leaving => []
  | .wake => []
  | .connectCallback c ok => [.connectCallback c ok]
  | .disconnectCallback c ok => [.disconnectCallback c ok]

/-- The sections of a whole interleaving, in the order they take effect. -/
def linearRun : State → List Action → List SubManager.Action
  | _, [] => []
  | s, a :: is => linear s a ++ linearRun (step s a).2 is

theorem redisConnect_whole (s : State) (o : Opening) :
    redisConnect { whole s with running := true } o
      = ((redisConnect s.manager o).1, (redisConnect s.manager o).2.1,
        { (redisConnect s.manager o).2.2 with
          running := true
          dispatching := s.connect.connected
          waiting := s.uninit.waits }) := by
  unfold redisConnect
  rcases o with _ | ⟨err, _ | err'⟩
  · rfl
  all_goals
    dsimp only
    split_ifs <;> rfl

/-- A step of a thread is the section that takes effect with it, if there is one. -/
def Simulates (s : State) (a : Action) : Prop :=
  (run SubManager.step (whole s) (linear s a)).2 = whole (step s a).2
    ∧ (run SubManager.step (whole s) (linear s a)).1.flatMap SubManager.Out.handed
      = (step s a).1.handed

theorem connect_simulates (h : Locked s) (o : Opening) : Simulates s (.connect o) := by
  unfold Simulates
  simp only [linear, step, connectStep]
  cases hc : s.connect with
  | checking =>
    dsimp only
    split_ifs with hr
    · simp [SubManager.step, whole, SubManager.connect, hc, hr, ConnectPhase.connected, quiet]
    · simp [whole, hc, ConnectPhase.connected, State.setRunning, quiet]
  | opening =>
    have hstep : SubManager.step (whole s) (.connect o) = SubManager.connect (whole s) o := by
      simp [SubManager.step, whole, hc, ConnectPhase.connected]
    have hredis : ¬ (whole s).redis = false := by simp [whole, h.opening hc]
    simp only [run_cons, run_nil, hstep, SubManager.connect, if_neg hredis, redisConnect_whole]
    rcases redisConnect s.manager o with ⟨res, handed, m⟩
    dsimp only
    by_cases hres : res ≠ 0
    · simp [hres, whole, hc, ConnectPhase.connected]
    · simp [hres, whole, ConnectPhase.connected]
  | ending =>
    simp [SubManager.step, whole, SubManager.connectEnd, hc, ConnectPhase.connected, quiet,
      State.setRunning]
  | notifying ret =>
    by_cases hu : s.uninit = .asleep
    · simp [whole, hc, hu, ConnectPhase.connected, UninitPhase.waits, quiet]
    · simp [whole, hc, hu, ConnectPhase.connected, quiet]
  | locking =>
    dsimp only
    split_ifs <;> simp [whole, hc, ConnectPhase.connected, quiet]
  | relocking =>
    dsimp only
    split_ifs <;> simp [whole, hc, ConnectPhase.connected, quiet]
  | outside | failing _ | unlocking | dispatching | leaving _ =>
    simp [whole, hc, ConnectPhase.connected, quiet, State.setRunning]

theorem uninit_simulates (h : Locked s) : Simulates s .uninit := by
  unfold Simulates
  simp only [linear, step, uninitStep]
  cases hu : s.uninit with
  | checking =>
    dsimp only
    split_ifs with hr hrun
    · simp [SubManager.step, whole, SubManager.uninit, hu, hr, UninitPhase.waits, quiet]
    · simp [whole, hu, UninitPhase.waits, quiet]
    · simp [whole, hu, UninitPhase.waits, quiet]
  | disconnecting =>
    have hconnected : s.connect.connected = true := by
      have hruns := h.set (by simp [hu, UninitPhase.toSleep])
      have hfree := h.connect_free (by simp [hu, UninitPhase.holds])
      exact ConnectPhase.connected_of_runs hruns hfree
    have hr := h.redis (by simp [hu, UninitPhase.toFree])
    simp [SubManager.step, whole, SubManager.uninit, hu, hr, hconnected, UninitPhase.waits,
      redisDisconnect, State.hand, State.live]
  | freeing =>
    have hconnected := ConnectPhase.not_connected (h.cleared hu)
    have hr := h.redis (by simp [hu, UninitPhase.toFree])
    simp [SubManager.step, whole, SubManager.uninit, managerFree, hu, hr, hconnected,
      UninitPhase.waits]
  | freeingWoken => simp [SubManager.step, whole, managerFree, hu, UninitPhase.waits]
  | locking =>
    dsimp only
    split_ifs <;> simp [whole, hu, UninitPhase.waits, quiet]
  | woken =>
    dsimp only
    split_ifs <;> simp [whole, hu, UninitPhase.waits, quiet]
  | outside | blocking | asleep | leaving => simp [whole, hu, UninitPhase.waits, quiet]

theorem step_simulates (h : Locked s) (a : Action) : Simulates s a := by
  cases a with
  | connect o => exact connect_simulates h o
  | uninit => exact uninit_simulates h
  | wake =>
    unfold Simulates
    simp only [linear, step]
    split_ifs with hu <;> simp [whole, hu, UninitPhase.waits, quiet]
  | connectCallback c ok =>
    unfold Simulates
    have hlive : (whole s).live c = s.manager.live c := rfl
    simp only [linear, step, run_cons, run_nil, SubManager.step, hlive]
    split_ifs <;> cases ok <;> exact ⟨rfl, rfl⟩
  | disconnectCallback c ok =>
    unfold Simulates
    have hlive : (whole s).live c = s.manager.live c := rfl
    simp only [linear, step, run_cons, run_nil, SubManager.step, hlive]
    split_ifs <;> exact ⟨rfl, rfl⟩

/-- An interleaving of the two threads leaves what their sections leave, taken whole in the order in
which they take effect, and hands hiredis the same contexts. -/
theorem run_linear : ∀ (s : State) (is : List Action), Locked s →
    (run SubManager.step (whole s) (linearRun s is)).2 = whole (run step s is).2
      ∧ (run SubManager.step (whole s) (linearRun s is)).1.flatMap SubManager.Out.handed
        = (run step s is).1.flatMap Out.handed
  | _, [], _ => ⟨rfl, rfl⟩
  | s, a :: is, h => by
    obtain ⟨h1, h2⟩ := step_simulates h a
    obtain ⟨h3, h4⟩ := run_linear (step s a).2 is (h.step a)
    rw [linearRun, run_append, h1, run_cons]
    exact ⟨h3, by rw [List.flatMap_append, h2, h4, List.flatMap_cons]⟩

end SubManager.Threads

end XCache
