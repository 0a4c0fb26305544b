import XCache.ConfigParser

/-!
# Lookups that fail

`find` is called outside of the handlers, so the `BadSubscript` of a path that goes on behind a
scalar (`Blocked`) leaves `get_required` and `get_optional`; any other path that leads to nothing is
reported by the one and answered with the default by the other. `get_array` throws a
`std::runtime_error` of its own where there is no sequence (`lookup_iff`).
-/

namespace XCache

namespace ConfigParser

variable {index : Index} {root node v : Node} {segment : Str} {segs : List Str}

/-! ## Paths -/

/-- What a container has under a name. -/
inductive Child (index : Index) : Node → Str → Node → Prop
  | map (before after : List (Node × Node)) (segment : Str) (v : Node)
    (hfirst : ∀ e ∈ before, e.1 ≠ .scalar segment) :
    Child index (.map (before ++ (.scalar segment, v) :: after)) segment v
  | sequence (items : List Node) (segment : Str) (v : Node) (h : index items segment = some v) :
    Child index (.sequence items) segment v

/-- The segments lead from the one to the other. -/
inductive Reaches (index : Index) : Node → List Str → Node → Prop
  | here (node : Node) : Reaches index node [] node
  | step {node next v : Node} {segment : Str} {rest : List Str}
    (hchild : Child index node segment next) (h : Reaches index next rest v) :
    Reaches index node (segment :: rest) v

/-- The segments go on behind a scalar. -/
def Blocked (index : Index) (root : Node) (segs : List Str) : Prop :=
  ∃ before segment after text, segs = before ++ segment :: after
    ∧ Reaches index root before (.scalar text)

theorem isScalar_iff (key : Str) : node.isScalar key = true ↔ node = .scalar key := by
  cases node with
  | scalar text => simp [Node.isScalar]
  | null | sequence | map => simp [Node.isScalar]

theorem subscript_some :
    node.subscript index segment = .ok (some v) ↔ Child index node segment v := by
  constructor
  · intro h
    cases node with
    | null => simp [Node.subscript] at h
    | scalar text => simp [Node.subscript] at h
    | sequence items => exact .sequence items segment v (Except.ok.inj h)
    | map entries =>
      obtain ⟨⟨key, w⟩, hfind, hw⟩ := Option.map_eq_some_iff.1 (Except.ok.inj h)
      obtain ⟨hkey, before, after, rfl, hbefore⟩ := List.find?_eq_some_iff_append.1 hfind
      obtain rfl := (isScalar_iff segment).1 hkey
      obtain rfl : w = v := hw
      refine .map before after segment w fun e he heq => ?_
      have hno := hbefore e he
      rw [(isScalar_iff segment).2 heq] at hno
      cases hno
  · intro h
    cases h with
    | map before after _ _ hfirst =>
      have hfind : (before ++ (Node.scalar segment, v) :: after).find?
          (fun e => e.1.isScalar segment) = some (.scalar segment, v) := by
        refine List.find?_eq_some_iff_append.2
          ⟨(isScalar_iff segment).2 rfl, before, after, rfl, fun e he => ?_⟩
        rw [Bool.not_eq_true', Bool.eq_false_iff, ne_eq, isScalar_iff]
        exact hfirst e he
      rw [Node.subscript, hfind]
      rfl
    | sequence items _ _ h => rw [Node.subscript, h]

theorem subscript_error {e : Exception} :
    node.subscript index segment = .error e ↔ e = .badSubscript ∧ ∃ text, node = .scalar text := by
  cases node with
  | scalar text =>
    constructor
    · intro h
      exact ⟨(Except.error.inj h).symm, text, rfl⟩
    · rintro ⟨rfl, -⟩
      rfl
  | null | sequence | map => simp [Node.subscript]

theorem reaches_cons : Reaches index node (segment :: segs) v
    ↔ ∃ next, Child index node segment next ∧ Reaches index next segs v :=
  ⟨fun | .step hchild h => ⟨_, hchild, h⟩, fun ⟨_, hchild, h⟩ => .step hchild h⟩

theorem blocked_cons : Blocked index node (segment :: segs)
    ↔ (∃ text, node = .scalar text)
      ∨ ∃ next, Child index node segment next ∧ Blocked index next segs := by
  constructor
  · rintro ⟨before, seg, after, text, heq, hreach⟩
    cases hreach with
    | here => exact .inl ⟨text, rfl⟩
    | step hchild h =>
      obtain ⟨rfl, rfl⟩ := List.cons.inj heq
      exact .inr ⟨_, hchild, _, seg, after, text, rfl, h⟩
  · rintro (⟨text, rfl⟩ | ⟨next, hchild, before, seg, after, text, rfl, h⟩)
    · exact ⟨[], segment, segs, text, rfl, .here _⟩
    · exact ⟨segment :: before, seg, after, text, rfl, .step hchild h⟩

theorem not_blocked_nil : ¬ Blocked index node [] := by
  rintro ⟨before, segment, after, text, heq, -⟩
  simp at heq

/-- What is there for a segment is the one child. -/
theorem child_iff {next : Node} (hsub : node.subscript index segment = .ok (some next)) :
    Child index node segment v ↔ next = v := by
  rw [← subscript_some, hsub]
  simp

theorem not_child (hsub : ∀ v, node.subscript index segment ≠ .ok (some v)) (v : Node) :
    ¬ Child index node segment v := fun h => hsub v (subscript_some.2 h)

/-- `find` finds what the segments lead to. -/
theorem walk_some : ∀ {segs : List Str} {node : Node},
    walk index node segs = .ok (some v) ↔ Reaches index node segs v
  | [], node => by
    constructor
    · intro h
      obtain rfl : node = v := Option.some.inj (Except.ok.inj h)
      exact .here node
    · rintro ⟨⟩
      rfl
  | segment :: segs, node => by
    rw [reaches_cons, walk]
    rcases hsub : node.subscript index segment with e | _ | next
    · exact ⟨fun h => (by cases h), fun ⟨w, hw, _⟩ => absurd hw (not_child (by simp [hsub]) w)⟩
    · exact ⟨fun h => (by cases h), fun ⟨w, hw, _⟩ => absurd hw (not_child (by simp [hsub]) w)⟩
    · simp only [child_iff hsub, exists_eq_left']
      exact walk_some

/-- It throws only where it is to go on behind a scalar. -/
theorem walk_error {e : Exception} : ∀ {segs : List Str} {node : Node},
    walk index node segs = .error e ↔ e = .badSubscript ∧ Blocked index node segs
  | [], node => by simp [walk, not_blocked_nil]
  | segment :: segs, node => by
    rw [blocked_cons, walk]
    rcases hsub : node.subscript index segment with e' | _ | next
    · obtain ⟨rfl, text, rfl⟩ := subscript_error.1 hsub
      refine ⟨fun h => ⟨(Except.error.inj h).symm, .inl ⟨text, rfl⟩⟩, ?_⟩
      rintro ⟨rfl, -⟩
      rfl
    · refine ⟨fun h => (by cases h), ?_⟩
      rintro ⟨-, ⟨text, rfl⟩ | ⟨w, hw, -⟩⟩
      · cases hsub
      · exact absurd hw (not_child (by simp [hsub]) w)
    · have hscalar : ¬ ∃ text, node = .scalar text := by
        rintro ⟨text, rfl⟩
        cases hsub
      simp only [child_iff hsub, exists_eq_left', hscalar, false_or]
      exact walk_error

theorem walk_cases (index : Index) (root : Node) (segs : List Str) :
    (Blocked index root segs ∧ walk index root segs = .error .badSubscript)
      ∨ (¬ Blocked index root segs ∧ (∀ v, ¬ Reaches index root segs v)
        ∧ walk index root segs = .ok none)
      ∨ (¬ Blocked index root segs ∧ ∃ v, (∀ w, Reaches index root segs w ↔ w = v)
        ∧ walk index root segs = .ok (some v)) := by
  rcases hwalk : walk index root segs with e | _ | v
  · obtain ⟨rfl, hblocked⟩ := walk_error.1 hwalk
    exact .inl ⟨hblocked, rfl⟩
  · refine .inr (.inl ⟨fun hblocked => ?_, fun v hv => ?_, rfl⟩)
    · rw [walk_error.2 ⟨rfl, hblocked⟩] at hwalk
      cases hwalk
    · rw [walk_some.2 hv] at hwalk
      cases hwalk
  · refine .inr (.inr ⟨fun hblocked => ?_, v, fun w => ?_, rfl⟩)
    · rw [walk_error.2 ⟨rfl, hblocked⟩] at hwalk
      cases hwalk
    · rw [← walk_some, hwalk]
      simp [eq_comm]

/-! ## The accessors -/

section Accessors

variable {T : Type} {elem : Element T} {mismatch : Str}

/-- No exception but `ConfigError` leaves. -/
def ConfigOnly (r : Except Exception T) : Prop := ∀ e, r = .error e → ∃ err, e = .configError err

/-- What a path leads to is returned as a `T`, or reported by a `ConfigError` if it is none. -/
def Returns (elem : Element T) (v : Node) (r : Except Exception T) : Prop :=
  (∀ x, elem.as v = .ok x → r = .ok x)
    ∧ ∀ e, elem.as v = .error e → ∃ err, r = .error (.configError err)

theorem convert_returns (elem : Element T) (mismatch : Str) (v : Node) :
    Returns elem v (convert elem mismatch v) := by
  unfold convert
  refine ⟨fun x hx => by rw [hx], fun e he => ?_⟩
  rw [he]
  cases e with
  | badConversion => exact ⟨_, rfl⟩
  | runtime what => exact ⟨_, rfl⟩

theorem convert_configOnly (elem : Element T) (mismatch : Str) (v : Node) :
    ConfigOnly (convert elem mismatch v) := by
  intro e he
  rcases hv : elem.as v with e' | x
  · obtain ⟨err, heq⟩ := (convert_returns elem mismatch v).2 e' hv
    rw [heq] at he
    exact ⟨err, (Except.error.inj he).symm⟩
  · rw [(convert_returns elem mismatch v).1 x hv] at he
    cases he

theorem mapM_convert (elem : Element T) (mismatch : Str) :
    ∀ items : List Node, ConfigOnly (items.mapM (convert elem mismatch))
  | [] => fun e he => by cases he
  | v :: items => by
    intro e he
    rw [List.mapM_cons] at he
    rcases hv : convert elem mismatch v with e' | x
    · rw [hv] at he
      obtain rfl : e' = e := Except.error.inj he
      exact convert_configOnly elem mismatch v e' hv
    · rw [hv] at he
      rcases hvs : items.mapM (convert elem mismatch) with e' | xs
      · rw [hvs] at he
        obtain rfl : e' = e := Except.error.inj he
        exact mapM_convert elem mismatch items e' hvs
      · rw [hvs] at he
        cases he

/-- A lookup answers what the path leads to, and `missing` exactly where it leads to nothing. No
exception but `ConfigError` leaves it. -/
def Proper (index : Index) (elem : Element T) (root : Node) (path : Str)
    (missing r : Except Exception T) : Prop :=
  ConfigOnly r ∧ (∀ v, Reaches index root (segments path) v → Returns elem v r)
    ∧ ((∀ v, ¬ Reaches index root (segments path) v) → r = missing)

/-- `get_required` and `get_optional`, which differ in what they do where nothing is found. -/
theorem proper_iff {path : Str} {missing : Except Exception T} (hmissing : ConfigOnly missing) :
    Proper index elem root path missing (do
        match ← find index root path with
        | none => missing
        | some v => convert elem mismatch v)
      ↔ ¬ Blocked index root (segments path) := by
  unfold Proper find
  obtain ⟨hblocked, hwalk⟩ | ⟨hfree, hnone, hwalk⟩ | ⟨hfree, v, hv, hwalk⟩ :=
    walk_cases index root (segments path)
  · refine ⟨fun h => ?_, fun hno => absurd hblocked hno⟩
    obtain ⟨err, heq⟩ := h.1 .badSubscript (by rw [hwalk]; rfl)
    cases heq
  · rw [hwalk]
    exact ⟨fun _ => hfree, fun _ => ⟨hmissing, fun v hv => absurd hv (hnone v), fun _ => rfl⟩⟩
  · rw [hwalk]
    refine ⟨fun _ => hfree, fun _ => ⟨convert_configOnly elem mismatch v, fun w hw => ?_,
      fun hno => absurd ((hv v).2 rfl) (hno v)⟩⟩
    obtain rfl := (hv w).1 hw
    exact convert_returns elem mismatch w

theorem getArray_iff {path : Str} :
    ConfigOnly (getArray index elem root path)
      ↔ ∃ items, Reaches index root (segments path) (.sequence items) := by
  unfold getArray find
  obtain ⟨hblocked, hwalk⟩ | ⟨-, hnone, hwalk⟩ | ⟨-, v, hv, hwalk⟩ :=
    walk_cases index root (segments path)
  · rw [hwalk]
    refine ⟨fun h => ?_, fun ⟨items, h⟩ => ?_⟩
    · obtain ⟨err, heq⟩ := h .badSubscript rfl
      cases heq
    · rw [walk_some.2 h] at hwalk
      cases hwalk
  · rw [hwalk]
    refine ⟨fun h => ?_, fun ⟨items, h⟩ => absurd h (hnone _)⟩
    obtain ⟨err, heq⟩ := h _ rfl
    cases heq
  · rw [hwalk]
    have hother : ∀ err, (∀ items, v ≠ .sequence items) →
        (ConfigOnly (.error (.runtimeError err) : Except Exception (List T))
          ↔ ∃ items, Reaches index root (segments path) (.sequence items)) := by
      refine fun err hne => ⟨fun h => ?_, fun ⟨items, h⟩ => absurd ((hv _).1 h).symm (hne items)⟩
      obtain ⟨err', heq⟩ := h _ rfl
      cases heq
    cases v with
    | sequence items => exact ⟨fun _ => ⟨items, (hv _).2 rfl⟩, fun _ => mapM_convert elem _ items⟩
    | null => exact hother _ fun _ h => by cases h
    | scalar text => exact hother _ fun _ h => by cases h
    | map entries => exact hother _ fun _ h => by cases h

end Accessors

/-- `get_required` and `get_optional` do as they say exactly if the path does not go on behind a
scalar, and `get_array` exactly if it leads to a sequence. -/
theorem lookup_iff {T : Type} (index : Index) (elem : Element T) (root : Node) (path : Str)
    (defaultVal : T) :
    (Proper index elem root path (.error (.configError (bytes "path missing: " ++ path)))
        (getRequired index elem root path)
      ↔ ¬ Blocked index root (segments path))
    ∧ (Proper index elem root path (.ok defaultVal)
        (getOptional index elem root path defaultVal)
      ↔ ¬ Blocked index root (segments path))
    ∧ (ConfigOnly (getArray index elem root path)
      ↔ ∃ items, Reaches index root (segments path) (.sequence items)) := by
  refine ⟨proper_iff fun e he => ?_, proper_iff fun e he => ?_, getArray_iff⟩
  · exact ⟨_, (Except.error.inj he).symm⟩
  · cases he

/-- `redis: localhost`, and what is behind it: `redis.port`. -/
theorem lookup_behind_scalar :
    let index : Index := fun _ _ => none
    let elem : Element Str := ⟨bytes "std::string", fun
      | .scalar text => .ok text
      | .null | .sequence _ | .map _ => .error .badConversion⟩
    let root := Node.map [(.scalar (bytes "redis"), .scalar (bytes "localhost"))]
    ¬ ConfigOnly (getRequired index elem root (bytes "redis.port"))
      ∧ ¬ ConfigOnly (getOptional index elem root (bytes "redis.port") (bytes "6379"))
      ∧ ¬ ConfigOnly (getArray index elem root (bytes "redis.port"))
      ∧ ¬ ConfigOnly (getArray index elem root (bytes "redis")) := by
  intro index elem root
  have hescape : ∀ {T : Type} {r : Except Exception T}, r = .error .badSubscript →
      ¬ ConfigOnly r := by
    intro T r hr h
    obtain ⟨err, heq⟩ := h _ hr
    cases heq
  refine ⟨hescape rfl, hescape rfl, hescape rfl, fun h => ?_⟩
  obtain ⟨err, heq⟩ := h _ rfl
  cases heq

end ConfigParser

end XCache
