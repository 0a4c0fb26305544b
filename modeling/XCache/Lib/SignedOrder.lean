import Mathlib

/-!
# Sorting by signed and by unsigned columns

Rows are compared column by column, each column a 64-bit word. `Before` is that comparison for a
reading of the words as integers: `Int64.toInt` for the signed one, `unsigned` for the other. A row
that comes first in the signed order comes first in the unsigned one exactly if at no column the
rows that are still tied have their words on both sides of the sign bit (`before_unsigned_iff`).
-/

namespace XCache

variable {ρ : Type}

/-- The word read as an unsigned number. -/
def unsigned (n : Int64) : ℤ := n.toUInt64.toNat

/-- `a` comes before `b`, or ties with it. -/
def Before (val : Int64 → ℤ) : List (ρ → Int64) → ρ → ρ → Prop
  | [], _, _ => True
  | f :: fs, a, b => val (f a) < val (f b) ∨ val (f a) = val (f b) ∧ Before val fs a b

/-- The rows with the least word of a column. -/
def leaders (f : ρ → Int64) (l : List ρ) : List ρ :=
  l.filter fun a => l.all fun b => decide (unsigned (f a) ≤ unsigned (f b))

/-- At every column, the rows that are still tied have their words on one side of the sign bit. -/
def OneSided : List (ρ → Int64) → List ρ → Prop
  | [], _ => True
  | f :: fs, l => (∀ a ∈ l, ∀ b ∈ l, (f a).toInt < 0 ↔ (f b).toInt < 0) ∧ OneSided fs (leaders f l)

instance OneSided.decidable : ∀ (fs : List (ρ → Int64)) (l : List ρ), Decidable (OneSided fs l)
  | [], _ => inferInstanceAs (Decidable True)
  | f :: fs, l =>
    have : Decidable (OneSided fs (leaders f l)) := OneSided.decidable fs _
    inferInstanceAs (Decidable (_ ∧ OneSided fs (leaders f l)))

theorem mem_leaders {f : ρ → Int64} {l : List ρ} {a : ρ} :
    a ∈ leaders f l ↔ a ∈ l ∧ ∀ b ∈ l, unsigned (f a) ≤ unsigned (f b) := by
  simp [leaders]

/-- The two readings differ by `2 ^ 64` where the sign bit is set. -/
theorem unsigned_eq (n : Int64) :
    unsigned n = if n.toInt < 0 then n.toInt + 2 ^ 64 else n.toInt := by
  have h := BitVec.toInt_eq_toNat_cond n.toBitVec
  have hlt := n.toBitVec.isLt
  have hnat : unsigned n = n.toBitVec.toNat := rfl
  rw [hnat, ← Int64.toInt_toBitVec]
  split_ifs at h ⊢ <;> omega

/-- On one side of the sign bit the two orders agree. -/
theorem unsigned_le_iff {m n : Int64} (h : m.toInt < 0 ↔ n.toInt < 0) :
    unsigned m ≤ unsigned n ↔ m.toInt ≤ n.toInt := by
  rw [unsigned_eq, unsigned_eq]
  split_ifs <;> omega

/-- Where one word is the least in both orders, the words are on one side of the sign bit. -/
theorem sign_of_least {m n : Int64} (hs : m.toInt ≤ n.toInt) (hu : unsigned m ≤ unsigned n) :
    m.toInt < 0 ↔ n.toInt < 0 := by
  have hm := m.le_toInt
  have hn := n.toInt_lt
  rw [unsigned_eq, unsigned_eq] at hu
  split_ifs at hu <;> omega

theorem unsigned_eq_iff {m n : Int64} : unsigned m = unsigned n ↔ m.toInt = n.toInt := by
  have hm := m.le_toInt
  have hm' := m.toInt_lt
  have hn := n.le_toInt
  have hn' := n.toInt_lt
  rw [unsigned_eq, unsigned_eq]
  split_ifs <;> omega

section Before

variable {val : Int64 → ℤ} {f : ρ → Int64} {fs : List (ρ → Int64)} {l : List ρ} {a : ρ}

/-- To come first is to have the least word of the first column, and to come first among those that
tie there. -/
theorem before_all_cons : (∀ b ∈ l, Before val (f :: fs) a b) ↔
    (∀ b ∈ l, val (f a) ≤ val (f b))
      ∧ ∀ b ∈ l, val (f b) = val (f a) → Before val fs a b := by
  constructor
  · intro h
    refine ⟨fun b hb => ?_, fun b hb heq => ?_⟩
    · rcases h b hb with h | h
      · exact h.le
      · exact h.1.le
    · rcases h b hb with h | h
      · omega
      · exact h.2
  · rintro ⟨hle, hrest⟩ b hb
    rcases (hle b hb).lt_or_eq with h | h
    · exact .inl h
    · exact .inr ⟨h, hrest b hb h.symm⟩

/-- The rows that tie with the least are the leaders. -/
theorem mem_leaders_iff (ha : ∀ b ∈ l, unsigned (f a) ≤ unsigned (f b)) (ham : a ∈ l) {b : ρ} :
    b ∈ leaders f l ↔ b ∈ l ∧ unsigned (f b) = unsigned (f a) := by
  rw [mem_leaders]
  constructor
  · rintro ⟨hb, hle⟩
    exact ⟨hb, le_antisymm (hle a ham) (ha b hb)⟩
  · rintro ⟨hb, heq⟩
    exact ⟨hb, fun c hc => heq ▸ ha c hc⟩

theorem before_unsigned_iff (ha : a ∈ l) (h : ∀ b ∈ l, Before Int64.toInt fs a b) :
    (∀ b ∈ l, Before unsigned fs a b) ↔ OneSided fs l := by
  induction fs generalizing l with
  | nil => exact ⟨fun _ => trivial, fun _ _ _ => trivial⟩
  | cons f fs ih =>
    obtain ⟨hle, hrest⟩ := before_all_cons.1 h
    -- once the first column is settled, the rest is about the rows that tie there
    have hstep : (∀ b ∈ l, unsigned (f a) ≤ unsigned (f b)) →
        ((∀ b ∈ l, unsigned (f b) = unsigned (f a) → Before unsigned fs a b)
          ↔ OneSided fs (leaders f l)) := by
      intro hu
      rw [← ih ((mem_leaders_iff hu ha).2 ⟨ha, rfl⟩) fun b hb => ?_]
      · exact ⟨fun h b hb => h b ((mem_leaders_iff hu ha).1 hb).1
            ((mem_leaders_iff hu ha).1 hb).2,
          fun h b hb heq => h b ((mem_leaders_iff hu ha).2 ⟨hb, heq⟩)⟩
      · obtain ⟨hb, heq⟩ := (mem_leaders_iff hu ha).1 hb
        exact hrest b hb (unsigned_eq_iff.1 heq)
    rw [before_all_cons]
    constructor
    · rintro ⟨hu, hr⟩
      have hside : ∀ b ∈ l, (f a).toInt < 0 ↔ (f b).toInt < 0 := fun b hb =>
        sign_of_least (hle b hb) (hu b hb)
      exact ⟨fun b hb c hc => (hside b hb).symm.trans (hside c hc), (hstep hu).1 hr⟩
    · rintro ⟨hside, hr⟩
      have hu : ∀ b ∈ l, unsigned (f a) ≤ unsigned (f b) := fun b hb =>
        (unsigned_le_iff (hside a ha b hb)).2 (hle b hb)
      exact ⟨hu, (hstep hu).2 hr⟩

/-- Words below `2 ^ 63` are on one side. -/
theorem oneSided_of_nonneg (h : ∀ f ∈ fs, ∀ a ∈ l, 0 ≤ (f a).toInt) : OneSided fs l := by
  induction fs generalizing l with
  | nil => trivial
  | cons f fs ih =>
    refine ⟨fun a ha b hb => ?_, ih fun g hg a ha => ?_⟩
    · have h1 := h f List.mem_cons_self a ha
      have h2 := h f List.mem_cons_self b hb
      omega
    · exact h g (List.mem_cons_of_mem _ hg) a (mem_leaders.1 ha).1

end Before

end XCache
