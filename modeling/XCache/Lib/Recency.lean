import Mathlib

/-!
# A recency list with a capacity

What a least-recently-used cache is for, with no database in it: a list of keys with their sizes,
most recent first, and a limit. Entries leave at the tail, and only while what is left does not
leave room for what is asked. Sizes are natural numbers.
-/

namespace XCache

/-- A call, `put` and `update` with a size. `idle` does nothing to the cache. -/
inductive Recency.Op (κ : Type)
  | put (k : κ) (size : ℕ)
  | renew (k : κ)
  | update (k : κ) (size : ℕ)
  | resize (limit : ℕ)
  | query (k : κ)
  | idle

inductive Recency.Answer (κ : Type)
  | rejected
  | unit
  | bool (b : Bool)
  | found (e : Option (κ × ℕ))
  deriving DecidableEq

/-- `delivered` are the lists of entries handed out when they left, oldest first. -/
@[ext] structure Recency (κ : Type) where
  entries : List (κ × ℕ)
  limit : ℕ
  delivered : List (List (κ × ℕ))
  deriving DecidableEq

namespace Recency

variable {κ : Type}

def total (l : List (κ × ℕ)) : ℕ := (l.map Prod.snd).sum

/-- What leaves at the front of `l` until `need` fits with what is kept, and what is kept. -/
def shed (limit need : ℕ) : List (κ × ℕ) → List (κ × ℕ) × List (κ × ℕ)
  | [] => ([], [])
  | e :: l =>
    if total (e :: l) + need > limit then (e :: (shed limit need l).1, (shed limit need l).2)
    else ([], e :: l)

/-- Entries leave at the tail. -/
def makeRoom (s : Recency κ) (need : ℕ) : Recency κ where
  entries := (shed s.limit need s.entries.reverse).2.reverse
  limit := s.limit
  delivered := s.delivered ++
    if (shed s.limit need s.entries.reverse).1 = [] then []
    else [(shed s.limit need s.entries.reverse).1]

def push (s : Recency κ) (k : κ) (size : ℕ) : Recency κ :=
  { s with entries := (k, size) :: s.entries }

variable [DecidableEq κ]

def find (s : Recency κ) (k : κ) : Option (κ × ℕ) := s.entries.find? fun e => e.1 = k

/-- The entry moves to the front. -/
def touch (s : Recency κ) (e : κ × ℕ) : Recency κ :=
  { s with entries := e :: s.entries.filter fun e' => e'.1 ≠ e.1 }

def setSize (s : Recency κ) (k : κ) (size : ℕ) : Recency κ :=
  { s with entries := s.entries.map fun e => if e.1 = k then (k, size) else e }

/-- The size of the entry of `k` changes, from `old`; if the entry itself leaves to make room for
its growth, nothing is left to change. -/
def changeSize (s : Recency κ) (k : κ) (old size : ℕ) : Recency κ :=
  if size > old then (s.makeRoom (size - old)).setSize k size else s.setSize k size

/-- One call; `null` is no key. -/
def step (null : κ) (s : Recency κ) : Op κ → Answer κ × Recency κ
  | .put k size =>
    if k = null ∨ size = 0 ∨ size > s.limit then (.rejected, s)
    else match s.find k with
      | none => (.bool true, (s.makeRoom size).push k size)
      | some e =>
        (.bool false, if size > e.2 then (s.touch e).changeSize k e.2 size else s.touch e)
  | .renew k =>
    if k = null then (.rejected, s)
    else match s.find k with
      | none => (.bool false, s)
      | some e => (.bool true, s.touch e)
  | .update k size =>
    if k = null ∨ size = 0 ∨ size > s.limit then (.rejected, s)
    else match s.find k with
      | none => (.bool false, s)
      | some e => (.bool true, s.changeSize k e.2 size)
  | .resize limit =>
    if limit = 0 then (.rejected, s) else (.unit, ({ s with limit := limit }).makeRoom 0)
  | .query k => if k = null then (.rejected, s) else (.found (s.find k), s)
  | .idle => (.unit, s)

/-! ## What a call does -/

section Step

variable {null k : κ} {n : ℕ} {e : κ × ℕ} {s : Recency κ}

/-- The arguments of `put` and `update` that are not rejected. -/
def Accepts (null : κ) (s : Recency κ) (k : κ) (n : ℕ) : Prop :=
  k ≠ null ∧ n ≠ 0 ∧ n ≤ s.limit

omit [DecidableEq κ] in
theorem Accepts.not_rejected (h : Accepts null s k n) :
    ¬ (k = null ∨ n = 0 ∨ n > s.limit) := by
  rintro (h0 | h0 | h0)
  · exact h.1 h0
  · exact h.2.1 h0
  · exact absurd h.2.2 (not_le.2 h0)

theorem step_put_absent (h : Accepts null s k n) (hf : s.find k = none) :
    step null s (.put k n) = (.bool true, (s.makeRoom n).push k n) := by
  rw [step, if_neg h.not_rejected, hf]

theorem step_put_renew (h : Accepts null s k n) (hf : s.find k = some e) (hn : n ≤ e.2) :
    step null s (.put k n) = (.bool false, s.touch e) := by
  rw [step, if_neg h.not_rejected, hf]
  simp only [if_neg (not_lt.2 hn)]

theorem step_put_grow (h : Accepts null s k n) (hf : s.find k = some e) (hn : e.2 < n) :
    step null s (.put k n) = (.bool false, (s.touch e).changeSize k e.2 n) := by
  rw [step, if_neg h.not_rejected, hf]
  simp only [if_pos hn]

theorem step_update_absent (h : Accepts null s k n) (hf : s.find k = none) :
    step null s (.update k n) = (.bool false, s) := by
  rw [step, if_neg h.not_rejected, hf]

theorem step_update (h : Accepts null s k n) (hf : s.find k = some e) :
    step null s (.update k n) = (.bool true, s.changeSize k e.2 n) := by
  rw [step, if_neg h.not_rejected, hf]

theorem step_renew_absent (h : k ≠ null) (hf : s.find k = none) :
    step null s (.renew k) = (.bool false, s) := by
  rw [step, if_neg h, hf]

theorem step_renew (h : k ≠ null) (hf : s.find k = some e) :
    step null s (.renew k) = (.bool true, s.touch e) := by
  rw [step, if_neg h, hf]

theorem step_resize (h : n ≠ 0) :
    step null s (.resize n) = (.unit, ({ s with limit := n }).makeRoom 0) := by
  rw [step, if_neg h]

theorem step_query (h : k ≠ null) : step null s (.query k) = (.found (s.find k), s) := by
  rw [step, if_neg h]

end Step

end Recency

end XCache
