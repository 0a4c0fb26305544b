import XCache.Lib.Machine

/-!
# When a machine can still get there

A measure that some admissible step brings down wherever the goal is not met leads to the goal
(`LeadsTo.of_measure`). With a set of states that no admissible step leaves and that does not meet
the goal, the goal is within reach exactly outside of it (`leadsTo_iff`), and inside of it no run
meets it (`Trap.never`). The steps that get there may be fewer than those that cannot get out:
what leads to the goal need not use what the machine only happens to do.

Where every admissible step that changes what one sees of the state brings a measure down, no run
changes it more often than the measure says (`changes_le`): whatever the order of the steps, it
comes to an end.
-/

namespace XCache

variable {σ ι ο : Type} {step : σ → ι → ο × σ} {ok helpful : σ → ι → Prop}
  {I trap goal : σ → Prop}

theorem LeadsTo.of_measure (μ : σ → ℕ)
    (hstep : ∀ s, I s → ¬ goal s → ∃ i, ok s i ∧ I (step s i).2 ∧ μ (step s i).2 < μ s) :
    ∀ s, I s → LeadsTo step ok goal s := by
  intro s hs
  induction hn : μ s using Nat.strong_induction_on generalizing s with
  | _ n ih =>
    subst hn
    by_cases hgoal : goal s
    · exact .here hgoal
    · obtain ⟨i, hi, hI, hlt⟩ := hstep s hs hgoal
      exact .of_step hi (ih _ hlt _ hI rfl)

/-- The states `trap` are those no admissible step leaves, and do not meet the goal. -/
structure Trap (step : σ → ι → ο × σ) (ok : σ → ι → Prop) (I trap goal : σ → Prop) : Prop where
  keeps : ∀ s i, I s → ok s i → I (step s i).2
  stays : ∀ s i, I s → trap s → ok s i → trap (step s i).2
  misses : ∀ s, I s → trap s → ¬ goal s

theorem Trap.never (h : Trap step ok I trap goal) {s : σ} {is : List ι} (hs : I s) (ht : trap s)
    (hr : RunOk step ok s is) : ¬ goal (run step s is).2 := by
  have hboth : I (run step s is).2 ∧ trap (run step s is).2 :=
    run_invariant (I := fun s => I s ∧ trap s)
      (fun s i hs hi => ⟨h.keeps s i hs.1 hi, h.stays s i hs.1 hs.2 hi⟩) s is ⟨hs, ht⟩ hr
  exact h.misses _ hboth.1 hboth.2

/-- Outside the trap some helpful step brings the measure down and stays outside: then the helpful
steps lead to the goal exactly from there. -/
theorem leadsTo_iff (h : Trap step ok I trap goal) (hhelp : ∀ s i, helpful s i → ok s i)
    (μ : σ → ℕ) (hstep : ∀ s, I s → ¬ trap s → ¬ goal s →
      ∃ i, helpful s i ∧ ¬ trap (step s i).2 ∧ μ (step s i).2 < μ s) {s : σ} (hs : I s) :
    LeadsTo step helpful goal s ↔ ¬ trap s := by
  refine ⟨fun ⟨is, hr, hg⟩ ht => h.never hs ht (RunOk.mono hhelp s is hr) hg, fun ht => ?_⟩
  refine LeadsTo.of_measure (I := fun s => I s ∧ ¬ trap s) μ (fun s hs hgoal => ?_) s ⟨hs, ht⟩
  obtain ⟨i, hi, hout, hlt⟩ := hstep s hs.1 hs.2 hgoal
  exact ⟨i, hi, ⟨h.keeps s i hs.1 (hhelp s i hi), hout⟩, hlt⟩

/-- The number of the steps of a run that change what `f` shows of the state. -/
def changes {τ : Type} [DecidableEq τ] (f : σ → τ) (step : σ → ι → ο × σ) : σ → List ι → ℕ
  | _, [] => 0
  | s, i :: is => (if f (step s i).2 = f s then 0 else 1) + changes f step (step s i).2 is

/-- A measure that no admissible step raises, and every one brings down that changes what `f`
shows. -/
theorem changes_le {τ : Type} [DecidableEq τ] {f : σ → τ} (μ : σ → ℕ)
    (hkeeps : ∀ s i, I s → ok s i → I (step s i).2)
    (hstep : ∀ s i, I s → ok s i → f (step s i).2 ≠ f s → μ (step s i).2 < μ s)
    (hstill : ∀ s i, I s → ok s i → f (step s i).2 = f s → μ (step s i).2 ≤ μ s) :
    ∀ (s : σ) (is : List ι), I s → RunOk step ok s is → changes f step s is ≤ μ s
  | _, [], _, _ => Nat.zero_le _
  | s, i :: is, hs, hr => by
    have ih := changes_le μ hkeeps hstep hstill (step s i).2 is (hkeeps s i hs hr.1) hr.2
    rw [changes]
    split
    · have := hstill s i hs hr.1 ‹_›
      omega
    · have := hstep s i hs hr.1 ‹_›
      omega

end XCache
