import Mathlib

/-!
# Containers of nodes

`std::list` and `std::set` keep each element in a node of its own, whose address does not change
while other elements come and go. An iterator is such an address; it dangles once its node has been
erased. No address is given out twice, so a dangling iterator never finds another node.

A `Place` says where a node goes in: at the front of a list, or where the order of a set puts it. A
set is ordered by `lt`, which decides `f a < f b` for some `f` into a linear order; of two elements
neither of which precedes the other, only the first gets in.
-/

namespace XCache

structure Node (α : Type) where
  addr : ℕ
  val : α

/-- Where a node goes in. -/
structure Place (α : Type) where
  put : Node α → List (Node α) → List (Node α)
  perm : ∀ n l, (put n l).Perm (n :: l)

def Place.front {α : Type} : Place α := ⟨List.cons, fun _ _ => List.Perm.refl _⟩

def Place.ordered {α : Type} (lt : α → α → Bool) : Place α where
  put := List.orderedInsert fun m n => lt n.val m.val = false
  perm n l := List.perm_orderedInsert _ n l

structure Nodes (α : Type) where
  nodes : List (Node α)
  /-- The next address to be given out. -/
  next : ℕ
  nodup : (nodes.map Node.addr).Nodup
  lt_next : ∀ n ∈ nodes, n.addr < next

namespace Nodes

variable {α : Type} (s : Nodes α)

def empty : Nodes α := ⟨[], 0, List.nodup_nil, fun _ h => absurd h List.not_mem_nil⟩

/-- `clear`. The addresses given out stay given out. -/
def clear : Nodes α := ⟨[], s.next, List.nodup_nil, fun _ h => absurd h List.not_mem_nil⟩

def vals : List α := s.nodes.map Node.val

/-- The node an iterator points to. -/
def find (it : ℕ) : Option (Node α) := s.nodes.find? fun n => n.addr = it

/-- A new node. -/
def insert (p : Place α) (a : α) : Nodes α where
  nodes := p.put ⟨s.next, a⟩ s.nodes
  next := s.next + 1
  nodup := by
    rw [((p.perm _ _).map Node.addr).nodup_iff, List.map_cons, List.nodup_cons, List.mem_map]
    refine ⟨fun ⟨n, hn, h⟩ => ?_, s.nodup⟩
    exact absurd h (s.lt_next n hn).ne
  lt_next n hn := by
    rcases List.mem_cons.1 ((p.perm _ _).mem_iff.1 hn) with rfl | hn
    · exact Nat.lt_succ_self _
    · exact (s.lt_next n hn).trans (Nat.lt_succ_self _)

def erase (it : ℕ) : Nodes α where
  nodes := s.nodes.filter fun n => n.addr ≠ it
  next := s.next
  nodup := s.nodup.sublist (List.filter_sublist.map _)
  lt_next n hn := s.lt_next n (List.mem_filter.1 hn).1

/-- The node of an address given out earlier, taken out if it is still in, and put in with the value
`a`. -/
def relink (p : Place α) (it : ℕ) (a : α) : Nodes α :=
  if h : it < s.next then
    { nodes := p.put ⟨it, a⟩ (s.erase it).nodes
      next := s.next
      nodup := by
        rw [((p.perm _ _).map Node.addr).nodup_iff, List.map_cons, List.nodup_cons, List.mem_map]
        refine ⟨fun ⟨n, hn, hit⟩ => ?_, (s.erase it).nodup⟩
        have := (List.mem_filter.1 hn).2
        simp [hit] at this
      lt_next := fun n hn => by
        rcases List.mem_cons.1 ((p.perm _ _).mem_iff.1 hn) with rfl | hn
        · exact h
        · exact (s.erase it).lt_next n hn }
  else s

/-- `*it = f(*it)`. -/
def modify (it : ℕ) (f : α → α) : Nodes α where
  nodes := s.nodes.map fun n => if n.addr = it then ⟨n.addr, f n.val⟩ else n
  next := s.next
  nodup := by
    have h : (Node.addr ∘ fun n : Node α => if n.addr = it then ⟨n.addr, f n.val⟩ else n)
        = Node.addr := by
      funext n
      simp only [Function.comp_apply]
      split_ifs <;> rfl
    rw [List.map_map, h]
    exact s.nodup
  lt_next n hn := by
    obtain ⟨m, hm, rfl⟩ := List.mem_map.1 hn
    have hlt := s.lt_next m hm
    split_ifs <;> exact hlt

/-! ## Sets -/

/-- The element of a set that keeps `a` out. -/
def twin (lt : α → α → Bool) (a : α) : Option (Node α) :=
  s.nodes.find? fun n => !lt n.val a && !lt a n.val

/-- `set::emplace`: the iterator it returns, whether `a` got in, and the set. -/
def emplace (lt : α → α → Bool) (a : α) : (ℕ × Bool) × Nodes α :=
  match s.twin lt a with
  | some n => ((n.addr, false), s)
  | none => ((s.next, true), s.insert (.ordered lt) a)

/-- `set::insert` of the node of address `it`, which has been extracted, with the value `a`. -/
def insertNode (lt : α → α → Bool) (it : ℕ) (a : α) : (ℕ × Bool) × Nodes α :=
  match s.twin lt a with
  | some n => ((n.addr, false), s)
  | none => ((it, true), s.relink (.ordered lt) it a)

/-! ## What the operations do -/

section Lemmas

variable {s} {it : ℕ} {n m : Node α} {p : Place α} {a : α}

theorem eq_of_addr (hn : n ∈ s.nodes) (hm : m ∈ s.nodes) (h : n.addr = m.addr) : n = m :=
  List.inj_on_of_nodup_map s.nodup hn hm h

theorem find_eq_some : s.find it = some n ↔ n ∈ s.nodes ∧ n.addr = it := by
  refine ⟨fun h => ⟨List.mem_of_find?_eq_some h, by simpa using List.find?_some h⟩, ?_⟩
  rintro ⟨hn, rfl⟩
  rcases hf : s.find n.addr with _ | m
  · have hnone := List.find?_eq_none.1 hf n hn
    simp at hnone
  · have hm : m.addr = n.addr := by simpa using List.find?_some hf
    rw [eq_of_addr (List.mem_of_find?_eq_some hf) hn hm]

theorem find_eq_none : s.find it = none ↔ ∀ n ∈ s.nodes, n.addr ≠ it := by
  unfold find
  simp

theorem mem_erase : n ∈ (s.erase it).nodes ↔ n ∈ s.nodes ∧ n.addr ≠ it := by
  simp [erase]

theorem erase_erase (s : Nodes α) (it : ℕ) :
    ((s.erase it).erase it).nodes = (s.erase it).nodes := by
  simp [erase]

theorem perm_erase (hn : n ∈ s.nodes) : s.nodes.Perm (n :: (s.erase n.addr).nodes) := by
  suffices H : ∀ l : List (Node α), (l.map Node.addr).Nodup → n ∈ l →
      l.Perm (n :: l.filter fun m => m.addr ≠ n.addr) from H _ s.nodup hn
  intro l
  induction l with
  | nil => simp
  | cons m l ih =>
    intro hnodup hmem
    obtain ⟨hm, hl⟩ := List.nodup_cons.1 hnodup
    rcases List.mem_cons.1 hmem with rfl | hmem
    · have hrest : l.filter (fun m => m.addr ≠ n.addr) = l := by
        refine List.filter_eq_self.2 fun k hk => ?_
        have hne : k.addr ≠ n.addr := fun h => hm (h ▸ List.mem_map_of_mem hk)
        simpa using hne
      rw [List.filter_cons_of_neg (by simp), hrest]
    · have hne : m.addr ≠ n.addr := fun h => hm (h ▸ List.mem_map_of_mem hmem)
      rw [List.filter_cons_of_pos (by simpa using hne)]
      exact ((ih hl hmem).cons m).trans (List.Perm.swap _ _ _)

theorem perm_modify (hn : n ∈ s.nodes) (f : α → α) :
    (s.modify n.addr f).nodes.Perm (⟨n.addr, f n.val⟩ :: (s.erase n.addr).nodes) := by
  have hrest : (s.erase n.addr).nodes.map
      (fun m => if m.addr = n.addr then ⟨m.addr, f m.val⟩ else m) = (s.erase n.addr).nodes := by
    conv_rhs => rw [← List.map_id (s.erase n.addr).nodes]
    exact List.map_congr_left fun m hm => if_neg (mem_erase.1 hm).2
  have h := (perm_erase hn).map fun m => if m.addr = n.addr then ⟨m.addr, f m.val⟩ else m
  rwa [List.map_cons, if_pos rfl, hrest] at h

@[simp] theorem insert_next : (s.insert p a).next = s.next + 1 := rfl

theorem perm_insert : (s.insert p a).nodes.Perm (⟨s.next, a⟩ :: s.nodes) := p.perm _ _

theorem relink_nodes (h : it < s.next) :
    (s.relink p it a).nodes = p.put ⟨it, a⟩ (s.erase it).nodes := by
  rw [relink, dif_pos h]

theorem perm_relink (h : it < s.next) :
    (s.relink p it a).nodes.Perm (⟨it, a⟩ :: (s.erase it).nodes) := by
  rw [relink_nodes h]
  exact p.perm _ _

end Lemmas

/-! ## Order -/

section Order

variable {s} {κ : Type} [LinearOrder κ] {f : α → κ} {lt : α → α → Bool}

/-- The elements of a set, from `begin()` to `end()`. -/
def Sorted (lt : α → α → Bool) (s : Nodes α) : Prop :=
  s.nodes.Pairwise fun m n => lt m.val n.val = true

theorem sorted_erase (hs : Sorted lt s) (it : ℕ) : Sorted lt (s.erase it) := hs.filter _

variable (hlt : ∀ a b, lt a b = true ↔ f a < f b)
include hlt

theorem twin_eq_none {a : α} : s.twin lt a = none ↔ ∀ n ∈ s.nodes, f n.val ≠ f a := by
  unfold twin
  simp only [List.find?_eq_none, Bool.and_eq_true, Bool.not_eq_true', ← Bool.not_eq_true, hlt,
    not_lt]
  refine forall₂_congr fun n _ => not_congr ?_
  exact ⟨fun h => le_antisymm h.2 h.1, fun h => ⟨h.ge, h.le⟩⟩

theorem sorted_put {n : Node α} {l : List (Node α)}
    (hl : l.Pairwise fun m n => lt m.val n.val = true) (hne : ∀ m ∈ l, f m.val ≠ f n.val) :
    ((Place.ordered lt).put n l).Pairwise fun m n => lt m.val n.val = true := by
  induction l with
  | nil => exact List.pairwise_singleton _ _
  | cons m l ih =>
    obtain ⟨hm, hl⟩ := List.pairwise_cons.1 hl
    obtain ⟨hmn, hne⟩ := List.forall_mem_cons.1 hne
    have hput : (Place.ordered lt).put n (m :: l)
        = if lt m.val n.val = false then n :: m :: l else m :: (Place.ordered lt).put n l := by
      simp only [Place.ordered, List.orderedInsert_cons]
    by_cases hle : lt m.val n.val = false
    · have hnm : f n.val < f m.val := by
        rw [← Bool.not_eq_true, hlt, not_lt] at hle
        exact lt_of_le_of_ne hle hmn.symm
      rw [hput, if_pos hle]
      refine List.pairwise_cons.2 ⟨fun k hk => (hlt _ _).2 ?_, List.pairwise_cons.2 ⟨hm, hl⟩⟩
      rcases List.mem_cons.1 hk with rfl | hk
      · exact hnm
      · exact hnm.trans ((hlt _ _).1 (hm k hk))
    · rw [hput, if_neg hle]
      refine List.pairwise_cons.2 ⟨fun k hk => ?_, ih hl hne⟩
      rcases List.mem_cons.1 (((Place.ordered lt).perm _ _).mem_iff.1 hk) with rfl | hk
      · simpa using hle
      · exact hm k hk

/-- An element unlike the others gets in, where the order puts it. -/
theorem sorted_emplace {a : α} (hs : Sorted lt s) (hne : ∀ n ∈ s.nodes, f n.val ≠ f a) :
    s.emplace lt a = ((s.next, true), s.insert (.ordered lt) a)
      ∧ Sorted lt (s.insert (.ordered lt) a) := by
  refine ⟨?_, sorted_put hlt hs hne⟩
  rw [emplace, (twin_eq_none hlt).2 hne]

theorem sorted_insertNode {it : ℕ} {a : α} (hs : Sorted lt s) (hit : it < s.next)
    (hne : ∀ n ∈ s.nodes, f n.val ≠ f a) :
    s.insertNode lt it a = ((it, true), s.relink (.ordered lt) it a)
      ∧ Sorted lt (s.relink (.ordered lt) it a) := by
  refine ⟨by rw [insertNode, (twin_eq_none hlt).2 hne], ?_⟩
  unfold Sorted
  rw [relink_nodes hit]
  exact sorted_put hlt (sorted_erase hs it) fun n hn => hne n (mem_erase.1 hn).1

end Order

end Nodes

end XCache
