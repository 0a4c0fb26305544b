import XCache.Lib.Progress
import XCache.Proofs.RedisThreads

/-!
# The subscriber comes to its end

Whoever waits for `connect_lock` waits for a thread that has it and can go on, and `uninit` sleeps
only while `connect` is on its way from the event loop to its notification (`Notified`). So the
calls that have been begun come to their end, in whatever order the threads go on.
-/

namespace XCache

namespace SubManager.Threads

variable {s s' : State}

/-- The steps `connect` has before it, at most. -/
def ConnectPhase.left : ConnectPhase → ℕ
  | .outside => 0
  | .leaving _ => 1
  | .notifying _ | .failing _ => 2
  | .ending => 3
  | .relocking => 4
  | .dispatching => 5
  | .unlocking => 6
  | .opening => 7
  | .checking => 8
  | .locking => 9

def UninitPhase.left : UninitPhase → ℕ
  | .outside => 0
  | .leaving => 1
  | .freeing | .freeingWoken => 2
  | .woken => 3
  | .asleep => 4
  | .blocking => 5
  | .disconnecting => 6
  | .checking => 7
  | .locking => 8

/-- Where the two threads are. -/
def State.places (s : State) : ConnectPhase × UninitPhase := (s.connect, s.uninit)

def State.left (s : State) : ℕ := s.connect.left + s.uninit.left

/-- No call is begun. -/
def Engaged (s : State) : Action → Prop
  | .connect _ => s.connect ≠ .outside
  | .uninit => s.uninit ≠ .outside
  | .wake | .connectCallback _ _ | .disconnectCallback _ _ => True

/-- A thread takes a step of its own. -/
def Own : Action → Prop
  | .connect _ | .uninit => True
  | .wake | .connectCallback _ _ | .disconnectCallback _ _ => False

/-! ## What a step leaves to do -/

theorem connectStep_left (o : Opening) (hin : s.connect ≠ .outside) :
    (connectStep s o).2.left < s.left ∨ (connectStep s o).2.places = s.places
      ∧ (s.connect = .locking ∨ s.connect = .relocking) ∧ s.connectLock ≠ none := by
  unfold connectStep
  rcases hc : s.connect <;> simp only [State.left, State.places, hc]
  case outside => exact absurd hc hin
  case locking =>
    split_ifs with hl
    · exact .inl (by simp [ConnectPhase.left])
    · exact .inr ⟨by simp [hc], .inl trivial, hl⟩
  case relocking =>
    split_ifs with hl
    · exact .inl (by simp [ConnectPhase.left])
    · exact .inr ⟨by simp [hc], .inr trivial, hl⟩
  case checking => split_ifs <;> exact .inl (by simp [ConnectPhase.left])
  case opening => split_ifs <;> exact .inl (by simp [ConnectPhase.left])
  case notifying ret =>
    refine .inl ?_
    split_ifs with hu
    · simp [hu, ConnectPhase.left, UninitPhase.left]
    · simp [ConnectPhase.left]
  all_goals exact .inl (by simp [ConnectPhase.left])

theorem uninitStep_left (hin : s.uninit ≠ .outside) :
    (uninitStep s).2.left < s.left ∨ (uninitStep s).2.places = s.places
      ∧ (s.uninit = .asleep
        ∨ (s.uninit = .locking ∨ s.uninit = .woken) ∧ s.connectLock ≠ none) := by
  unfold uninitStep
  rcases hu : s.uninit <;> simp only [State.left, State.places, hu]
  case outside => exact absurd hu hin
  case locking =>
    split_ifs with hl
    · exact .inl (by simp [UninitPhase.left])
    · exact .inr ⟨by simp [hu], .inr ⟨.inl trivial, hl⟩⟩
  case woken =>
    split_ifs with hl
    · exact .inl (by simp [UninitPhase.left])
    · exact .inr ⟨by simp [hu], .inr ⟨.inr trivial, hl⟩⟩
  case checking => split_ifs <;> exact .inl (by simp [UninitPhase.left])
  case asleep => exact .inr ⟨by simp, .inl trivial⟩
  all_goals exact .inl (by simp [UninitPhase.left])

/-- A step that begins no call leaves less to do, or both threads where they are. -/
theorem step_left {a : Action} (ha : Engaged s a) :
    (step s a).2.left < s.left ∨ (step s a).2.places = s.places := by
  cases a with
  | connect o => exact (connectStep_left o ha).imp_right And.left
  | uninit => exact (uninitStep_left ha).imp_right And.left
  | wake =>
    simp only [step, State.left, State.places]
    split_ifs with hu
    · exact .inl (by simp [hu, UninitPhase.left])
    · exact .inr rfl
  | connectCallback c ok => exact .inr rfl
  | disconnectCallback c ok => exact .inr rfl

/-! ## No lost notification -/

/-- While `uninit` sleeps, `connect` is on its way to notify it. -/
structure Notified (s : State) : Prop where
  locked : Locked s
  asleep : s.uninit = .asleep → s.connect.toNotify = true

theorem uninit_asleep (h : Notified s) (hu : (uninitStep s).2.uninit = .asleep) :
    s.connect.toNotify = true := by
  unfold uninitStep at hu
  rcases hp : s.uninit <;> simp only [hp] at hu
  case blocking =>
    have hruns := h.locked.set (by rw [hp]; rfl)
    have hfree := h.locked.connect_free (by rw [hp]; rfl)
    rcases hc : s.connect <;>
      simp_all [ConnectPhase.runs, ConnectPhase.holds, ConnectPhase.toNotify]
  case asleep => exact h.asleep hp
  case locking | checking | woken => split_ifs at hu <;> simp_all
  all_goals simp at hu

theorem step_notified (h : Notified s) (a : Action) : Notified (step s a).2 := by
  refine ⟨h.locked.step a, fun hu => ?_⟩
  cases a with
  | connect o =>
    rcases connectStep_uninit s o with ⟨hsame, hn⟩ | ⟨-, hwoken, -⟩
    · have hasleep := hsame.symm.trans hu
      exact toNotify_connectStep o (h.asleep hasleep) (hn hasleep)
    · exact absurd (hwoken.symm.trans hu) (by simp)
  | uninit =>
    have hconnect : (uninitStep s).2.connect = s.connect := by
      unfold uninitStep
      split <;> (try split) <;> (try split) <;> rfl
    rw [step, hconnect]
    exact uninit_asleep h hu
  | wake =>
    simp only [step] at hu
    split_ifs at hu with hs
    exact absurd hu hs
  | connectCallback c ok => exact h.asleep hu
  | disconnectCallback c ok => exact h.asleep hu

/-- As long as a call is not at its end, the thread of one of them can go on. -/
theorem Notified.advances (h : Notified s) (hin : s.places ≠ (.outside, .outside)) :
    ∃ a, Engaged s a ∧ Own a ∧ (step s a).2.places ≠ s.places := by
  have hchange : ∀ {t : State}, t.left < s.left → t.places ≠ s.places := by
    intro t hlt heq
    obtain ⟨h1, h2⟩ := Prod.mk.inj heq
    simp [State.left, h1, h2] at hlt
  have hconnect : s.connect ≠ .outside → s.connect ≠ .locking ∧ s.connect ≠ .relocking
      ∨ s.connectLock = none → ∃ a, Engaged s a ∧ Own a ∧ (step s a).2.places ≠ s.places := by
    intro hc hfree
    rcases connectStep_left .null hc with hlt | ⟨-, hwait, hlock⟩
    · exact ⟨.connect .null, hc, trivial, hchange hlt⟩
    · rcases hfree with ⟨h1, h2⟩ | hnone
      · exact absurd hwait (by simp [h1, h2])
      · exact absurd hnone hlock
  have huninit : s.uninit ≠ .outside → s.uninit ≠ .asleep →
      s.uninit ≠ .locking ∧ s.uninit ≠ .woken ∨ s.connectLock = none →
      ∃ a, Engaged s a ∧ Own a ∧ (step s a).2.places ≠ s.places := by
    intro hu hawake hfree
    rcases uninitStep_left hu with hlt | ⟨-, hasleep | ⟨hwait, hlock⟩⟩
    · exact ⟨.uninit, hu, trivial, hchange hlt⟩
    · exact absurd hasleep hawake
    · rcases hfree with ⟨h1, h2⟩ | hnone
      · exact absurd hwait (by simp [h1, h2])
      · exact absurd hnone hlock
  rcases hlock : s.connectLock with _ | _ | _
  · by_cases hc : s.connect = .outside
    · refine huninit (fun hu => hin (by simp [State.places, hc, hu])) (fun hu => ?_) (.inr hlock)
      have := h.asleep hu
      simp [hc, ConnectPhase.toNotify] at this
    · exact hconnect hc (.inr hlock)
  · have hholds := h.locked.connectHolds.1 hlock
    refine hconnect ?_ (.inl ⟨?_, ?_⟩) <;> rintro hc <;> simp [hc, ConnectPhase.holds] at hholds
  · have hholds := h.locked.uninitHolds.1 hlock
    refine huninit ?_ ?_ (.inl ⟨?_, ?_⟩) <;> rintro hu <;> simp [hu, UninitPhase.holds] at hholds

/-- From any state of any run on, whatever hiredis calls back and whenever `cv.wait` wakes: while no
call is begun, the threads of `connect` and of `uninit` change where they are at most seventeen
times, and where neither can go on, both calls have returned. -/
theorem calls_return (m : SubManager.State) (is : List Action) :
    let s := (run step (start m) is).2
    ∀ more, RunOk step Engaged s more →
      changes State.places step s more ≤ 17
        ∧ ((∀ a, Engaged (run step s more).2 a → Own a →
            (step (run step s more).2 a).2.places = (run step s more).2.places) →
          (run step s more).2.connect = .outside ∧ (run step s more).2.uninit = .outside) := by
  intro s more hmore
  have hstart : Notified (start m) := ⟨start_locked m, nofun⟩
  have hlast : Notified (run step s more).2 := by
    refine run_invariant (I := Notified) (fun t a h _ => step_notified h a) s more ?_
      (RunOk.top s more)
    exact run_invariant (I := Notified) (fun t a h _ => step_notified h a) _ is hstart
      (RunOk.top _ is)
  refine ⟨?_, fun hnone => ?_⟩
  · have hle := changes_le (I := fun _ => True) State.left (fun _ _ _ _ => trivial)
      (fun t a _ ha hne => (step_left ha).resolve_right hne)
      (fun t a _ ha heq => (step_left ha).elim le_of_lt fun _ => by
        obtain ⟨h1, h2⟩ := Prod.mk.inj heq
        simp [State.left, h1, h2]) s more trivial hmore
    refine hle.trans ?_
    have h1 : s.connect.left ≤ 9 := by rcases s.connect <;> simp [ConnectPhase.left]
    have h2 : s.uninit.left ≤ 8 := by rcases s.uninit <;> simp [UninitPhase.left]
    exact add_le_add h1 h2
  · by_contra hnot
    obtain ⟨a, ha, hown, hne⟩ := hlast.advances fun heq => hnot (Prod.mk.inj heq)
    exact hne (hnone a ha hown)

end SubManager.Threads

end XCache
