import Mathlib

/-!
# The first least element of a list

`ORDER BY … LIMIT 1` over a list: `least lt l` is the first element of `l` that no other precedes.
The comparison is a `Bool`, so that the choice computes; `hlt` says which order it decides.
-/

namespace XCache

variable {ρ κ : Type}

def least (lt : ρ → ρ → Bool) (l : List ρ) : Option ρ := l.find? fun r => l.all fun r' => !lt r' r

variable {lt : ρ → ρ → Bool} {l : List ρ} {r : ρ}

theorem least_mem (h : least lt l = some r) : r ∈ l := List.mem_of_find?_eq_some h

theorem least_not_lt (h : least lt l = some r) : ∀ r' ∈ l, lt r' r = false := by
  intro r' h'
  have hall := List.find?_some h
  simpa using List.all_eq_true.1 hall r' h'

section Order

variable [LinearOrder κ] {f : ρ → κ}

theorem least_le (hlt : ∀ a b, lt a b = true ↔ f a < f b) (h : least lt l = some r) :
    ∀ r' ∈ l, f r ≤ f r' := by
  intro r' h'
  have := least_not_lt h r' h'
  rw [← Bool.not_eq_true, hlt, not_lt] at this
  exact this

theorem least_none (hlt : ∀ a b, lt a b = true ↔ f a < f b) (h : least lt l = none) : l = [] := by
  by_contra hne
  obtain ⟨m, hm⟩ : ∃ m, l.argmin f = some m := by
    rcases ha : l.argmin f with _ | m
    · exact absurd (List.argmin_eq_none.1 ha) hne
    · exact ⟨m, rfl⟩
  refine List.find?_eq_none.1 h m (List.argmin_mem hm) (List.all_eq_true.2 fun r' h' => ?_)
  have := List.le_of_mem_argmin h' hm
  rw [Bool.not_eq_true', ← Bool.not_eq_true, hlt, not_lt]
  exact this

end Order

end XCache
