import Mathlib

/-!
# Stretches of a log

A log to which several parties add, each entry with the tag of the party that added it. The entries
of one tag make a stretch of the log when none of another tag stands between them. A party that adds
to the end keeps its stretch as long as no other does (`Opened`); once it is done, the others may go
on (`Stretch.append`). A stretch of a log is one of every part of the log that is chosen by its
entries alone (`Stretch.filter`).
-/

namespace XCache

variable {ι α : Type} {log : List (ι × α)} {c d : ι} {own : List α}

/-- The entries tagged `c` are `own`, with no other between them. -/
def Stretch (log : List (ι × α)) (c : ι) (own : List α) : Prop :=
  ∃ before after, log = before ++ own.map (Prod.mk c) ++ after ∧ ∀ e ∈ before ++ after, e.1 ≠ c

/-- The entries tagged `c` are `own`, and the last of the log. -/
def Opened (log : List (ι × α)) (c : ι) (own : List α) : Prop :=
  ∃ before, log = before ++ own.map (Prod.mk c) ∧ ∀ e ∈ before, e.1 ≠ c

theorem Opened.nil (h : ∀ e ∈ log, e.1 ≠ c) : Opened log c [] :=
  ⟨log, (List.append_nil log).symm, h⟩

theorem Opened.append (h : Opened log c own) (more : List α) :
    Opened (log ++ more.map (Prod.mk c)) c (own ++ more) := by
  obtain ⟨before, rfl, hb⟩ := h
  exact ⟨before, by rw [List.map_append, List.append_assoc], hb⟩

theorem Opened.stretch (h : Opened log c own) : Stretch log c own := by
  obtain ⟨before, rfl, hb⟩ := h
  exact ⟨before, [], (List.append_nil _).symm, by rwa [List.append_nil]⟩

/-- Others add to the log. -/
theorem Stretch.append (h : Stretch log c own) {es : List (ι × α)} (hes : ∀ e ∈ es, e.1 ≠ c) :
    Stretch (log ++ es) c own := by
  obtain ⟨before, after, rfl, hout⟩ := h
  refine ⟨before, after ++ es, List.append_assoc _ _ _, fun e he => ?_⟩
  rw [← List.append_assoc] at he
  rcases List.mem_append.1 he with he | he
  · exact hout e he
  · exact hes e he

theorem Stretch.nil (h : ∀ e ∈ log, e.1 ≠ c) : Stretch log c [] := (Opened.nil h).stretch

theorem Stretch.filter (h : Stretch log c own) (p : α → Bool) :
    Stretch (log.filter fun e => p e.2) c (own.filter p) := by
  obtain ⟨before, after, rfl, hout⟩ := h
  refine ⟨before.filter fun e => p e.2, after.filter fun e => p e.2, ?_, fun e he => ?_⟩
  · rw [List.filter_append, List.filter_append, List.filter_map]
    rfl
  · rw [← List.filter_append] at he
    exact hout e (List.mem_filter.1 he).1

end XCache
