import Mathlib

/-!
# Regular expressions over an alphabet

What patterns are written with beyond Mathlib's `RegularExpression`: a word, one letter of a list,
an optional part, and a part that comes at least once. A repeated letter of a list is a word over
the list (`mem_star_oneOf`), and a part that is repeated with a letter behind it, and comes once
more, is a list of parts with the letter between each two (`mem_separated`).
-/

namespace XCache

namespace Regex

variable {α : Type}

def word (w : List α) : RegularExpression α := w.foldr (fun c P => .char c * P) 1

def oneOf (cs : List α) : RegularExpression α := cs.foldr (fun c P => .char c + P) 0

def maybe (P : RegularExpression α) : RegularExpression α := 1 + P

def atLeastOnce (P : RegularExpression α) : RegularExpression α := P * P.star

variable {cs w : List α} {P : RegularExpression α}

theorem mem_oneOf : ∀ {cs : List α}, w ∈ (oneOf cs).matches' ↔ ∃ c ∈ cs, w = [c]
  | [] => ⟨fun h => h.elim, fun ⟨_, hc, _⟩ => by cases hc⟩
  | c :: cs => by
    show w ∈ (RegularExpression.char c).matches' + (oneOf cs).matches' ↔ _
    rw [Language.mem_add, mem_oneOf, List.exists_mem_cons_iff]
    exact Iff.rfl

theorem mem_maybe : w ∈ (maybe P).matches' ↔ w = [] ∨ w ∈ P.matches' := Iff.rfl

theorem mem_star_oneOf : w ∈ (oneOf cs).star.matches' ↔ ∀ c ∈ w, c ∈ cs := by
  rw [RegularExpression.matches'_star, Language.mem_kstar]
  constructor
  · rintro ⟨parts, rfl, hparts⟩ c hc
    obtain ⟨part, hpart, hcp⟩ := List.mem_flatten.1 hc
    obtain ⟨d, hd, rfl⟩ := mem_oneOf.1 (hparts part hpart)
    rwa [List.mem_singleton.1 hcp]
  · intro h
    refine ⟨w.map fun c => [c], (List.flatMap_singleton' w).symm, fun part hpart => ?_⟩
    obtain ⟨c, hc, rfl⟩ := List.mem_map.1 hpart
    exact mem_oneOf.2 ⟨c, h c hc, rfl⟩

theorem mem_atLeastOnce_oneOf :
    w ∈ (atLeastOnce (oneOf cs)).matches' ↔ w ≠ [] ∧ ∀ c ∈ w, c ∈ cs := by
  rw [atLeastOnce, RegularExpression.matches'_mul, Language.mem_mul]
  constructor
  · rintro ⟨a, ha, b, hb, rfl⟩
    obtain ⟨c, hc, rfl⟩ := mem_oneOf.1 ha
    refine ⟨by simp, fun d hd => ?_⟩
    rcases List.mem_cons.1 hd with rfl | hd
    · exact hc
    · exact mem_star_oneOf.1 hb d hd
  · rintro ⟨hne, hall⟩
    obtain ⟨c, w, rfl⟩ := List.exists_cons_of_ne_nil hne
    obtain ⟨hc, hw⟩ := List.forall_mem_cons.1 hall
    exact ⟨[c], mem_oneOf.2 ⟨c, hc, rfl⟩, w, mem_star_oneOf.2 hw, rfl⟩

theorem mem_word : ∀ {w : List α} {v : List α}, v ∈ (word w).matches' ↔ v = w
  | [], _ => Iff.rfl
  | c :: w, v => by
    show v ∈ (RegularExpression.char c * word w).matches' ↔ _
    rw [RegularExpression.matches'_mul, Language.mem_mul]
    constructor
    · rintro ⟨a, rfl, b, hb, rfl⟩
      rw [mem_word.1 hb]
      rfl
    · rintro rfl
      exact ⟨[c], rfl, w, mem_word.2 rfl, rfl⟩

theorem mem_separated {c : α} {n : ℕ} {w : List α} :
    w ∈ ((P * .char c) ^ n * P).matches' ↔ ∃ parts : List (List α), parts.length = n + 1
      ∧ (∀ part ∈ parts, part ∈ P.matches') ∧ w = [c].intercalate parts := by
  rw [RegularExpression.matches'_mul, RegularExpression.matches'_pow,
    RegularExpression.matches'_mul, RegularExpression.matches'_char]
  induction n generalizing w with
  | zero =>
    rw [pow_zero, one_mul]
    constructor
    · intro h
      exact ⟨[w], rfl, by simpa using h, List.intercalate_singleton.symm⟩
    · rintro ⟨parts, hlength, hparts, rfl⟩
      obtain ⟨part, rfl⟩ := List.length_eq_one_iff.1 hlength
      rw [List.intercalate_singleton]
      exact hparts part List.mem_cons_self
  | succ n ih =>
    rw [pow_succ', mul_assoc, mul_assoc, Language.mem_mul]
    simp only [Language.mem_mul, ih]
    constructor
    · rintro ⟨part, hpart, b, ⟨_, rfl, d, ⟨parts, hlength, hparts, rfl⟩, rfl⟩, rfl⟩
      refine ⟨part :: parts, by rw [List.length_cons, hlength],
        List.forall_mem_cons.2 ⟨hpart, hparts⟩, ?_⟩
      rw [List.intercalate_cons_of_ne_nil (List.ne_nil_of_length_eq_add_one hlength),
        List.append_assoc]
    · rintro ⟨parts, hlength, hparts, rfl⟩
      obtain ⟨part, parts, rfl⟩ := List.exists_cons_of_length_eq_add_one hlength
      obtain ⟨hpart, hrest⟩ := List.forall_mem_cons.1 hparts
      have hrestLength : parts.length = n + 1 := Nat.succ.inj hlength
      refine ⟨part, hpart, _, ⟨[c], rfl, _, ⟨parts, hrestLength, hrest, rfl⟩, rfl⟩, ?_⟩
      rw [List.intercalate_cons_of_ne_nil (List.ne_nil_of_length_eq_add_one hrestLength),
        List.append_assoc]

end Regex

end XCache
