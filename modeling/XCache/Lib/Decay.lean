import XCache.Lib.Recency

/-!
# A cache by frequency that forgets

What least-frequently-used with dynamic aging is for, with neither a database nor an age in it. An
entry counts its uses, and its credit is that count as of its last use. An entry of the least credit
leaves, and takes as much credit from every entry that stays. Which of equal entries leaves is free,
so a call is a relation.
-/

namespace XCache

@[ext] structure Decay.Entry (κ : Type) where
  key : κ
  size : ℕ
  count : ℕ
  credit : ℕ

/-- `delivered` are the lists of entries handed out when they left, oldest first. -/
@[ext] structure Decay (κ : Type) where
  entries : Multiset (Decay.Entry κ)
  limit : ℕ
  delivered : List (List (κ × ℕ))

namespace Decay

open Recency (Op Answer)

variable {κ : Type}

namespace Entry

def file (e : Entry κ) : κ × ℕ := (e.key, e.size)

def use (e : Entry κ) : Entry κ := { e with count := e.count + 1, credit := e.count + 1 }

def decay (n : ℕ) (e : Entry κ) : Entry κ := { e with credit := e.credit - n }

end Entry

def used (s : Decay κ) : ℕ := (s.entries.map Entry.size).sum

/-- `v` may be the next to leave: an entry of the least credit, and of the least count among
these. -/
structure Next (s : Decay κ) (v : Entry κ) : Prop where
  mem : v ∈ s.entries
  least : ∀ e ∈ s.entries, v.credit < e.credit ∨ v.credit = e.credit ∧ v.count ≤ e.count

def deliver (s : Decay κ) (gone : List (Entry κ)) : Decay κ :=
  if gone = [] then s else { s with delivered := s.delivered ++ [gone.map Entry.file] }

def push (s : Decay κ) (k : κ) (size : ℕ) : Decay κ :=
  { s with entries := ⟨k, size, 1, 1⟩ ::ₘ s.entries }

/-- The arguments of `put` and `update` that are not rejected. -/
def Accepts (null : κ) (s : Decay κ) (k : κ) (n : ℕ) : Prop := k ≠ null ∧ n ≠ 0 ∧ n ≤ s.limit

def Absent (s : Decay κ) (k : κ) : Prop := ∀ e ∈ s.entries, e.key ≠ k

/-- The call is rejected; `null` is no key. -/
def Rejects (null : κ) (s : Decay κ) : Op κ → Prop
  | .put k n | .update k n => ¬ Accepts null s k n
  | .renew k | .query k => k = null
  | .resize n => n = 0
  | .idle => False

variable [DecidableEq κ]

def evict (s : Decay κ) (v : Entry κ) : Decay κ :=
  { s with entries := (s.entries.filter fun e => e.key ≠ v.key).map (Entry.decay v.credit) }

/-- The entries of `gone` leave, one after the other, until `need` fits. -/
inductive Sheds (need : ℕ) : Decay κ → List (Entry κ) → Decay κ → Prop
  | fits {s : Decay κ} : s.used + need ≤ s.limit → Sheds need s [] s
  | evict {s s' : Decay κ} {v : Entry κ} {gone : List (Entry κ)} : s.limit < s.used + need →
    s.Next v → Sheds need (s.evict v) gone s' → Sheds need s (v :: gone) s'

/-- Room is made for `need`, and what has left is handed out. -/
def MakesRoom (need : ℕ) (s s' : Decay κ) : Prop :=
  ∃ gone t, Sheds need s gone t ∧ s' = t.deliver gone

def touch (s : Decay κ) (k : κ) : Decay κ :=
  { s with entries := s.entries.map fun e => if e.key = k then e.use else e }

def setSize (s : Decay κ) (k : κ) (size : ℕ) : Decay κ :=
  { s with entries := s.entries.map fun e => if e.key = k then { e with size := size } else e }

/-- The size of the entry of `k` changes, from `old`; if the entry itself leaves to make room for
its growth, nothing is left to change. -/
def ChangesSize (k : κ) (old size : ℕ) (s s' : Decay κ) : Prop :=
  if old < size then ∃ t, MakesRoom (size - old) s t ∧ s' = t.setSize k size
  else s' = s.setSize k size

/-- One call. -/
inductive Step (null : κ) (s : Decay κ) : Op κ → Answer κ → Decay κ → Prop
  | rejected {op : Op κ} : Rejects null s op → Step null s op .rejected s
  | put {k : κ} {n : ℕ} {s' : Decay κ} : Accepts null s k n → s.Absent k → MakesRoom n s s' →
    Step null s (.put k n) (.bool true) (s'.push k n)
  | putRenewed {e : Entry κ} {n : ℕ} : Accepts null s e.key n → e ∈ s.entries → n ≤ e.size →
    Step null s (.put e.key n) (.bool false) (s.touch e.key)
  | putGrown {e : Entry κ} {n : ℕ} {s' : Decay κ} : Accepts null s e.key n → e ∈ s.entries →
    e.size < n → ChangesSize e.key e.size n (s.touch e.key) s' →
    Step null s (.put e.key n) (.bool false) s'
  | renewMissing {k : κ} : k ≠ null → s.Absent k → Step null s (.renew k) (.bool false) s
  | renewed {e : Entry κ} : e.key ≠ null → e ∈ s.entries →
    Step null s (.renew e.key) (.bool true) (s.touch e.key)
  | updateMissing {k : κ} {n : ℕ} : Accepts null s k n → s.Absent k →
    Step null s (.update k n) (.bool false) s
  | updated {e : Entry κ} {n : ℕ} {s' : Decay κ} : Accepts null s e.key n → e ∈ s.entries →
    ChangesSize e.key e.size n s s' → Step null s (.update e.key n) (.bool true) s'
  | resize {n : ℕ} {s' : Decay κ} : n ≠ 0 → MakesRoom 0 { s with limit := n } s' →
    Step null s (.resize n) .unit s'
  | queryMissing {k : κ} : k ≠ null → s.Absent k → Step null s (.query k) (.found none) s
  | query {e : Entry κ} : e.key ≠ null → e ∈ s.entries →
    Step null s (.query e.key) (.found (some e.file)) s
  | idle : Step null s .idle .unit s

/-- Calls one after the other, with their answers. -/
inductive Run (null : κ) : Decay κ → List (Op κ) → List (Answer κ) → Decay κ → Prop
  | nil {s : Decay κ} : Run null s [] [] s
  | cons {s s' s'' : Decay κ} {op : Op κ} {a : Answer κ} {ops : List (Op κ)}
    {as : List (Answer κ)} : Step null s op a s' → Run null s' ops as s'' →
    Run null s (op :: ops) (a :: as) s''

end Decay

end XCache
