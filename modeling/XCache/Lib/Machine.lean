import Mathlib

/-!
# Runs of a machine

A machine takes an input in a state, answers and moves on. `run` feeds it a list of inputs.
An invariant every admissible step keeps holds after every admissible run (`run_invariant`), what
every admissible step answers is what the run answers (`run_outputs`), what each passes on in order
the run passes on in order (`run_fifo`), and what each records the run records (`run_record`); a
condition on the steps is the weakest there is if every step it rules out leads on to a state that
is bad (`run_exact`). Two machines in lockstep answer alike (`run_simulation`); so does a machine
that is interrupted by steps that leave its state what it was, as far as that relation tells
(`run_interrupt`).
-/

namespace XCache

variable {σ τ ι ο : Type}

/-- The answers to a list of inputs, and the state after the last. -/
def run (step : σ → ι → ο × σ) : σ → List ι → List ο × σ
  | s, [] => ([], s)
  | s, i :: is => ((step s i).1 :: (run step (step s i).2 is).1, (run step (step s i).2 is).2)

/-- Every input of the list is admissible in the state it meets. -/
def RunOk (step : σ → ι → ο × σ) (ok : σ → ι → Prop) : σ → List ι → Prop
  | _, [] => True
  | s, i :: is => ok s i ∧ RunOk step ok (step s i).2 is

instance RunOk.decidable {step : σ → ι → ο × σ} {ok : σ → ι → Prop}
    [∀ s i, Decidable (ok s i)] : ∀ (s : σ) (is : List ι), Decidable (RunOk step ok s is)
  | _, [] => inferInstanceAs (Decidable True)
  | s, i :: is =>
    have : Decidable (RunOk step ok (step s i).2 is) := RunOk.decidable _ is
    inferInstanceAs (Decidable (ok s i ∧ RunOk step ok (step s i).2 is))

section Run

variable {step : σ → ι → ο × σ} {ok : σ → ι → Prop}

@[simp] theorem run_nil (s : σ) : run step s [] = ([], s) := rfl

@[simp] theorem run_cons (s : σ) (i : ι) (is : List ι) :
    run step s (i :: is)
      = ((step s i).1 :: (run step (step s i).2 is).1, (run step (step s i).2 is).2) := rfl

theorem run_append : ∀ (s : σ) (is js : List ι),
    run step s (is ++ js)
      = ((run step s is).1 ++ (run step (run step s is).2 js).1,
        (run step (run step s is).2 js).2)
  | s, [], js => rfl
  | s, i :: is, js => by
    rw [List.cons_append, run_cons, run_append _ is js]
    rfl

theorem runOk_append : ∀ {s : σ} {is js : List ι},
    RunOk step ok s (is ++ js) ↔ RunOk step ok s is ∧ RunOk step ok (run step s is).2 js
  | s, [], js => by simp [RunOk]
  | s, i :: is, js => by
    simp only [List.cons_append, RunOk, run_cons, runOk_append (s := (step s i).2), and_assoc]

theorem RunOk.mono {ok' : σ → ι → Prop} (h : ∀ s i, ok s i → ok' s i) :
    ∀ (s : σ) (is : List ι), RunOk step ok s is → RunOk step ok' s is
  | _, [], _ => trivial
  | s, i :: is, hr => ⟨h s i hr.1, RunOk.mono h (step s i).2 is hr.2⟩

theorem RunOk.top : ∀ (s : σ) (is : List ι), RunOk step (fun _ _ => True) s is
  | _, [] => True.intro
  | s, i :: is => ⟨True.intro, RunOk.top (step s i).2 is⟩

theorem RunOk.of_inputs {P : ι → Prop} :
    ∀ (s : σ) (is : List ι), (∀ i ∈ is, P i) → RunOk step (fun _ i => P i) s is
  | _, [], _ => True.intro
  | s, i :: is, h =>
    ⟨h i List.mem_cons_self,
      RunOk.of_inputs (step s i).2 is fun j hj => h j (List.mem_cons_of_mem _ hj)⟩

theorem RunOk.and {ok' : σ → ι → Prop} :
    ∀ {s : σ} {is : List ι}, RunOk step ok s is → RunOk step ok' s is →
      RunOk step (fun s i => ok s i ∧ ok' s i) s is
  | _, [], _, _ => trivial
  | _, _ :: _, h, h' => ⟨⟨h.1, h'.1⟩, h.2.and h'.2⟩

theorem run_invariant {I : σ → Prop} (hstep : ∀ s i, I s → ok s i → I (step s i).2) :
    ∀ (s : σ) (is : List ι), I s → RunOk step ok s is → I (run step s is).2
  | _, [], h, _ => h
  | s, i :: is, h, hr => run_invariant hstep (step s i).2 is (hstep s i h hr.1) hr.2

theorem run_outputs {I : σ → Prop} {O : ο → Prop} (hstep : ∀ s i, I s → ok s i → I (step s i).2)
    (hout : ∀ s i, I s → ok s i → O (step s i).1) :
    ∀ (s : σ) (is : List ι), I s → RunOk step ok s is → ∀ o ∈ (run step s is).1, O o
  | _, [], _, _ => by simp
  | s, i :: is, h, hr => by
    intro o ho
    rw [run_cons, List.mem_cons] at ho
    rcases ho with rfl | ho
    · exact hout s i h hr.1
    · exact run_outputs hstep hout (step s i).2 is (hstep s i h hr.1) hr.2 o ho

/-- What comes in over a run, `into` at a step. -/
def incoming {τ : Type} (into : σ → ι → List τ) (step : σ → ι → ο × σ) : σ → List ι → List τ
  | _, [] => []
  | s, i :: is => into s i ++ incoming into step (step s i).2 is

/-- What every step appends to a record is what a run appends to it. -/
theorem run_record {τ : Type} (into : σ → ι → List τ) (record : σ → List τ)
    (hstep : ∀ s i, record (step s i).2 = record s ++ into s i) :
    ∀ (s : σ) (is : List ι), record (run step s is).2 = record s ++ incoming into step s is
  | _, [] => (List.append_nil _).symm
  | s, i :: is => by
    rw [run_cons, run_record into record hstep (step s i).2 is, hstep, incoming, List.append_assoc]

/-- What comes in with the inputs alone does not depend on the states. -/
theorem incoming_inputs {τ : Type} (f : ι → List τ) :
    ∀ (s : σ) (is : List ι), incoming (fun _ => f) step s is = is.flatMap f
  | _, [] => rfl
  | s, i :: is => by rw [incoming, incoming_inputs f _ is, List.flatMap_cons]

/-- If only admissible steps answer well, a run that answers well was admissible. -/
theorem runOk_of_outputs {ok' : σ → ι → Prop} {I : σ → Prop} {O : ο → Prop}
    (hstep : ∀ s i, I s → ok s i → ok' s i → I (step s i).2)
    (hout : ∀ s i, I s → ok s i → O (step s i).1 → ok' s i) :
    ∀ (s : σ) (is : List ι), I s → RunOk step ok s is → (∀ o ∈ (run step s is).1, O o) →
      RunOk step ok' s is
  | _, [], _, _, _ => trivial
  | s, i :: is, h, hr, ho => by
    rw [run_cons] at ho
    have hi := hout s i h hr.1 (ho _ List.mem_cons_self)
    exact ⟨hi, runOk_of_outputs hstep hout _ is (hstep s i h hr.1 hi) hr.2
      fun o hmem => ho o (List.mem_cons_of_mem _ hmem)⟩

/-- When the steps that meet `ok'` are those that keep the invariant and answer well, so are the
runs. -/
theorem run_iff {ok' : σ → ι → Prop} {I : σ → Prop} {O : ο → Prop}
    (hgood : ∀ s i, I s → ok s i → ok' s i → I (step s i).2 ∧ O (step s i).1)
    (hbad : ∀ s i, I s → ok s i → ¬ ok' s i → ¬ O (step s i).1) {s : σ} {is : List ι} (hs : I s)
    (hr : RunOk step ok s is) :
    (∀ before after, is = before ++ after → I (run step s before).2)
        ∧ (∀ o ∈ (run step s is).1, O o) ↔ RunOk step ok' s is := by
  refine ⟨fun h => ?_, fun h => ⟨fun before after heq => ?_, ?_⟩⟩
  · exact runOk_of_outputs (fun s i hs ho hi => (hgood s i hs ho hi).1)
      (fun s i hs ho hout => by_contra fun hi => hbad s i hs ho hi hout) s is hs hr h.2
  · subst heq
    exact run_invariant (I := I) (fun s i hs ho => (hgood s i hs ho.1 ho.2).1) s before hs
      ((runOk_append.1 hr).1.and (runOk_append.1 h).1)
  · exact run_outputs (fun s i hs ho => (hgood s i hs ho.1 ho.2).1)
      (fun s i hs ho => (hgood s i hs ho.1 ho.2).2) s is hs (hr.and h)

/-- When the steps that meet `ok'` are those that are good, and they keep the invariant, a run is
good throughout exactly if all its steps meet `ok'`. -/
theorem runOk_iff {ok' good : σ → ι → Prop} {I : σ → Prop}
    (hgood : ∀ s i, I s → ok s i → ok' s i → I (step s i).2 ∧ good s i)
    (hbad : ∀ s i, I s → ok s i → ¬ ok' s i → ¬ good s i) :
    ∀ (s : σ) (is : List ι), I s → RunOk step ok s is →
      (RunOk step good s is ↔ RunOk step ok' s is)
  | _, [], _, _ => Iff.rfl
  | s, i :: is, hs, hr => by
    by_cases hi : ok' s i
    · obtain ⟨hI, hg⟩ := hgood s i hs hr.1 hi
      exact and_congr (iff_of_true hg hi) (runOk_iff hgood hbad (step s i).2 is hI hr.2)
    · exact iff_of_false (fun h => hbad s i hs hr.1 hi h.1) (fun h => hi h.1)

/-! ### The steps that are to blame -/

/-- Admissible steps can lead to a state that is bad. -/
def LeadsTo (step : σ → ι → ο × σ) (ok : σ → ι → Prop) (bad : σ → Prop) (s : σ) : Prop :=
  ∃ is, RunOk step ok s is ∧ bad (run step s is).2

theorem LeadsTo.here {bad : σ → Prop} {s : σ} (h : bad s) : LeadsTo step ok bad s :=
  ⟨[], trivial, h⟩

theorem LeadsTo.of_run {bad : σ → Prop} {s : σ} (is : List ι) (hr : RunOk step ok s is)
    (h : LeadsTo step ok bad (run step s is).2) : LeadsTo step ok bad s := by
  obtain ⟨more, hmore, hb⟩ := h
  refine ⟨is ++ more, runOk_append.2 ⟨hr, hmore⟩, ?_⟩
  rw [run_append]
  exact hb

theorem LeadsTo.of_step {bad : σ → Prop} {s : σ} {i : ι} (hi : ok s i)
    (h : LeadsTo step ok bad (step s i).2) : LeadsTo step ok bad s :=
  .of_run [i] ⟨hi, trivial⟩ h

/-- When runs of admissible steps are good, and any other step leads on to a state in which they go
wrong, then a run stays good, whatever admissible steps follow, exactly as long as the next step is
admissible. -/
theorem run_exact {good : List ι → Prop} {bad : σ → Prop} {s : σ}
    (hgood : ∀ is, RunOk step ok s is → good is)
    (hbad : ∀ is, bad (run step s is).2 →
      ∃ more, RunOk step ok (run step s is).2 more ∧ ¬ good (is ++ more))
    (hleads : ∀ is i, RunOk step ok s is → ¬ ok (run step s is).2 i →
      LeadsTo step ok bad (step (run step s is).2 i).2)
    (is : List ι) (h : RunOk step ok s is) :
    good is ∧ ∀ i, ok (run step s is).2 i ↔
      ∀ more, RunOk step ok (step (run step s is).2 i).2 more → good (is ++ i :: more) := by
  refine ⟨hgood is h, fun i => ⟨fun hi more hmore => ?_, fun hl => by_contra fun hi => ?_⟩⟩
  · exact hgood _ (runOk_append.2 ⟨h, hi, hmore⟩)
  · obtain ⟨more, hmore, hb⟩ := hleads is i h hi
    have hrun : (run step (step (run step s is).2 i).2 more).2
        = (run step s (is ++ i :: more)).2 := by
      rw [run_append, run_cons]
    rw [hrun] at hb
    obtain ⟨last, hlast, hnot⟩ := hbad _ hb
    rw [← hrun] at hlast
    refine hnot ?_
    rw [List.append_assoc, List.cons_append]
    exact hl (more ++ last) (runOk_append.2 ⟨hmore, hlast⟩)

/-! ### Two machines -/

/-- Steps that are equal wherever an invariant holds make equal runs. -/
theorem run_congr {step' : σ → ι → ο × σ} {I : σ → Prop}
    (hstep : ∀ s i, I s → ok s i → step' s i = step s i ∧ I (step s i).2) :
    ∀ (s : σ) (is : List ι), I s → RunOk step ok s is → run step' s is = run step s is
  | _, [], _, _ => rfl
  | s, i :: is, hs, hr => by
    obtain ⟨heq, hI⟩ := hstep s i hs hr.1
    rw [run_cons, run_cons, heq, run_congr hstep (step s i).2 is hI hr.2]

/-- Two machines whose states are related at the start, and whose steps keep them related and
answer alike as far as `f` tells, answer alike on every run. -/
theorem run_simulation {ο' : Type} {step' : τ → ι → ο' × τ} {R : σ → τ → Prop} {f : ο → ο'}
    (hstep : ∀ s t i, R s t → ok s i →
      f (step s i).1 = (step' t i).1 ∧ R (step s i).2 (step' t i).2) :
    ∀ (s : σ) (t : τ) (is : List ι), R s t → RunOk step ok s is →
      (run step s is).1.map f = (run step' t is).1 ∧ R (run step s is).2 (run step' t is).2
  | _, _, [], h, _ => ⟨rfl, h⟩
  | s, t, i :: is, h, hr => by
    obtain ⟨h1, h2⟩ := hstep s t i h hr.1
    obtain ⟨h3, h4⟩ := run_simulation hstep (step s i).2 (step' t i).2 is h2 hr.2
    refine ⟨?_, h4⟩
    simp only [run_cons, List.map_cons, h1, h3]

/-- Two machines, each fed with what stands for the same inputs: what the steps preserve between the
two, where each admits its input, holds after the runs. -/
theorem run_related {ο' ι' π : Type} {step' : τ → ι' → ο' × τ} {ok' : τ → ι' → Prop}
    {R : σ → τ → Prop} (f : π → ι) (g : π → ι')
    (hstep : ∀ s t i, R s t → ok s (f i) → ok' t (g i) → R (step s (f i)).2 (step' t (g i)).2) :
    ∀ (s : σ) (t : τ) (is : List π), R s t → RunOk step ok s (is.map f) →
      RunOk step' ok' t (is.map g) → R (run step s (is.map f)).2 (run step' t (is.map g)).2
  | _, _, [], h, _, _ => h
  | s, t, i :: is, h, hr, hr' =>
    run_related f g hstep (step s (f i)).2 (step' t (g i)).2 is (hstep s t i h hr.1 hr'.1) hr.2
      hr'.2

/-- The machine with further inputs, to which it reacts by `extra`. -/
def interrupt {ρ π : Type} (step : σ → ι → ο × σ) (extra : σ → ρ → π × σ) (s : σ) :
    ρ ⊕ ι → (π ⊕ ο) × σ
  | .inl r => (.inl (extra s r).1, (extra s r).2)
  | .inr i => (.inr (step s i).1, (step s i).2)

theorem run_interrupt {ρ π : Type} {extra : σ → ρ → π × σ} {R : σ → σ → Prop}
    (hstep : ∀ s t i, R s t → ok t i →
      (step s i).1 = (step t i).1 ∧ R (step s i).2 (step t i).2)
    (hextra : ∀ s t r, R s t → R (extra s r).2 t) :
    ∀ (s t : σ) (es : List (ρ ⊕ ι)), R s t → RunOk step ok t (es.filterMap Sum.getRight?) →
      (run (interrupt step extra) s es).1.filterMap Sum.getRight?
          = (run step t (es.filterMap Sum.getRight?)).1
        ∧ R (run (interrupt step extra) s es).2 (run step t (es.filterMap Sum.getRight?)).2
  | _, _, [], h, _ => ⟨rfl, h⟩
  | s, t, .inl r :: es, h, hr => run_interrupt hstep hextra (extra s r).2 t es (hextra s t r h) hr
  | s, t, .inr i :: es, h, hr => by
    obtain ⟨h1, h2⟩ := hstep s t i h hr.1
    obtain ⟨h3, h4⟩ := run_interrupt hstep hextra (step s i).2 (step t i).2 es h2 hr.2
    exact ⟨congrArg₂ List.cons h1 h3, h4⟩

end Run

end XCache
