import XCache.Parser

/-!
# What the parser makes of a line

`is_number_integer` holds of unsigned numbers too, so it is asked before `is_number_unsigned` can
be, and a number is cast to `int64_t` however it is stored: one from 2^63 on comes out negative
(`parse_describes_iff`). `find` answers `npos` where there is no brace, and not the size, so
`substr` throws; and of the exceptions of `json::parse` one is handled (`parse_declared_iff`).
-/

namespace XCache

namespace Parser

variable {F : Type} {lib : Library F}

/-! ## The value of a key -/

/-- What the JSON object has for a key, if it has it, is returned as what it is. -/
inductive Describes (lib : Library F) : Option (Value F) → LogValue F → Prop
  | absent : Describes lib none (.unknown false [])
  | null : Describes lib (some .null) .null
  | boolean (b : Bool) : Describes lib (some (.boolean b)) (.boolean b)
  | int64 (k : Int64) : Describes lib (some (.integer k.toInt)) (.int64 k)
  | uint64 (k : UInt64) : Describes lib (some (.integer k.toNat)) (.uint64 k)
  | beyond (n : ℤ) (hn : ¬ (-2 ^ 63 ≤ n ∧ n < 2 ^ 64)) :
    Describes lib (some (.integer n)) (.double (lib.ofInt n))
  | double (x : F) : Describes lib (some (.float x)) (.double x)
  | string (s : Str) : Describes lib (some (.string s)) (.string s)
  | array (items : List (Value F)) (str : Str) :
    Describes lib (some (.array items)) (.unknown true str)
  | object (members : List (Str × Value F)) (str : Str) :
    Describes lib (some (.object members)) (.unknown true str)

/-- The integer does not fit an `int64_t`, but an `uint64_t`. -/
def Wraps (n : ℤ) : Prop := 2 ^ 63 ≤ n ∧ n < 2 ^ 64

theorem storeMembers_lookup (ofInt : ℤ → F) (key : Str) :
    ∀ members : List (Str × Value F),
      (storeMembers ofInt members).lookup key = (members.lookup key).map (Value.store ofInt)
  | [] => rfl
  | (name, v) :: members => by
    rw [storeMembers, List.lookup_cons, List.lookup_cons]
    cases key == name
    · exact storeMembers_lookup ofInt key members
    · rfl

/-- Every integer that is stored is cast to `int64_t`. -/
theorem logValue_integer (lib : Library F) (n : ℤ) :
    (-2 ^ 63 ≤ n ∧ n < 2 ^ 64 ∧ ∃ k : Int64, (¬ Wraps n → k.toInt = n)
        ∧ logValue lib (storeInteger lib.ofInt n) = .ok (.int64 k))
      ∨ ¬ (-2 ^ 63 ≤ n ∧ n < 2 ^ 64)
        ∧ logValue lib (storeInteger lib.ofInt n) = .ok (.double (lib.ofInt n)) := by
  unfold storeInteger
  split_ifs with hu hi
  · refine .inl ⟨by omega, hu.2, (UInt64.ofNat n.toNat).toInt64, fun hw => ?_, rfl⟩
    have hlt : n.toNat < 2 ^ 63 := by
      unfold Wraps at hw
      omega
    have hk : (UInt64.ofNat n.toNat).toInt64 = Int64.ofNat n.toNat := rfl
    rw [hk, Int64.toInt_ofNat_of_lt hlt]
    exact Int.toNat_of_nonneg hu.1
  · refine .inl ⟨hi.1, by omega, Int64.ofInt n, fun _ => ?_, rfl⟩
    exact Int64.toInt_ofInt_of_le hi.1 (by omega)
  · exact .inr ⟨by omega, rfl⟩

/-- A value is returned as what it is, but for an integer that is cast to another. -/
theorem logValue_store {v : Value F} {str : Str}
    (hdump : lib.dump (v.store lib.ofInt) = some str) :
    ∃ out, logValue lib (v.store lib.ofInt) = .ok out
      ∧ (Describes lib (some v) out ↔ ∀ n, v = .integer n → ¬ Wraps n) := by
  cases v with
  | null => exact ⟨_, rfl, fun _ _ h => (by cases h), fun _ => .null⟩
  | boolean b => exact ⟨_, rfl, fun _ _ h => (by cases h), fun _ => .boolean b⟩
  | float x => exact ⟨_, rfl, fun _ _ h => (by cases h), fun _ => .double x⟩
  | string s => exact ⟨_, rfl, fun _ _ h => (by cases h), fun _ => .string s⟩
  | array items =>
    refine ⟨.unknown true str, ?_, fun _ _ h => (by cases h), fun _ => .array items str⟩
    have heq : Json.dump lib (Value.store lib.ofInt (.array items)) = .ok str := by
      rw [Json.dump, hdump]
    exact congrArg (Except.map (LogValue.unknown true)) heq
  | object members =>
    refine ⟨.unknown true str, ?_, fun _ _ h => (by cases h), fun _ => .object members str⟩
    have heq : Json.dump lib (Value.store lib.ofInt (.object members)) = .ok str := by
      rw [Json.dump, hdump]
    exact congrArg (Except.map (LogValue.unknown true)) heq
  | integer n =>
    rw [Value.store]
    obtain ⟨hlo, hhi, k, hk, hval⟩ | ⟨hout, hval⟩ := logValue_integer lib n
    · refine ⟨_, hval, fun hd m hm hw => ?_, fun hw => ?_⟩
      · cases hm
        cases hd
        exact absurd hw.1 (Int.not_le.2 k.toInt_lt)
      · have hkn := hk (hw n rfl)
        rw [← hkn]
        exact .int64 k
    · refine ⟨_, hval, fun _ m hm hw => ?_, fun _ => .beyond n hout⟩
      cases hm
      unfold Wraps at hw
      omega

/-! ## The text from the first brace on -/

theorem find_append {c : UInt8} {pre text : Str} (hpre : c ∉ pre) (htext : text.head? = some c) :
    find c (pre ++ text) = some pre.length := by
  obtain ⟨text, rfl⟩ := List.head?_eq_some_iff.1 htext
  have hnone : pre.findIdx? (· = c) = none :=
    List.findIdx?_eq_none_iff.2 fun x hx => decide_eq_false fun heq => hpre (heq ▸ hx)
  rw [find, List.findIdx?_append, hnone, List.findIdx?_cons, if_pos (decide_eq_true rfl)]
  simp

/-- Before the first brace, and from it on. -/
theorem span_brace {data : Str} (h : brace ∈ data) :
    ∃ pre, brace ∉ pre ∧ data = pre ++ data.dropWhile (· ≠ brace)
      ∧ (data.dropWhile (· ≠ brace)).head? = some brace := by
  refine ⟨data.takeWhile (· ≠ brace), fun hmem => ?_, List.takeWhile_append_dropWhile.symm, ?_⟩
  · simpa using List.mem_takeWhile_imp hmem
  · have hne : data.dropWhile (· ≠ brace) ≠ [] := fun hnil => by
      have hall := List.dropWhile_eq_nil_iff.1 hnil brace h
      simp at hall
    have hhead := List.head_dropWhile_not (fun x => decide (x ≠ brace)) hne
    rw [List.head?_eq_some_head hne]
    simpa using hhead

theorem parse_append (p : Parser) (lib : Library F) {pre text : Str} (hpre : brace ∉ pre)
    (htext : text.head? = some brace) :
    p.parse lib (pre ++ text) = (do
      let jsonParsed ← parseJson lib text
      p.jsonKeys.mapM (element lib jsonParsed)) := by
  have hlt : pre.length < (pre ++ text).length := by
    obtain ⟨text, rfl⟩ := List.head?_eq_some_iff.1 htext
    simp
  have hsub : substr (pre ++ text) (some pre.length) = .ok text := by
    rw [substr, if_pos hlt.le, List.drop_left]
  rw [parse, find_append hpre htext, if_neg fun heq => hlt.ne (Option.some.inj heq), hsub]
  rfl

/-- Without a brace the text is not rejected, but cut off behind its end. -/
theorem parse_no_brace (p : Parser) (lib : Library F) {data : Str} (h : brace ∉ data) :
    p.parse lib data = .error .outOfRange := by
  have hnone : find brace data = none :=
    List.findIdx?_eq_none_iff.2 fun x hx => decide_eq_false fun heq => h (heq ▸ hx)
  rw [parse, hnone]
  rfl

/-! ## All keys -/

theorem mapM_ok {α β ε : Type} {f : α → Except ε β} :
    ∀ {l : List α}, (∀ a ∈ l, ∃ b, f a = .ok b) →
      ∃ bs, l.mapM f = .ok bs ∧ List.Forall₂ (fun a b => f a = .ok b) l bs
  | [], _ => ⟨[], rfl, .nil⟩
  | a :: l, h => by
    obtain ⟨b, hb⟩ := h a List.mem_cons_self
    obtain ⟨bs, hbs, hall⟩ := mapM_ok fun x hx => h x (List.mem_cons_of_mem a hx)
    exact ⟨b :: bs, by rw [List.mapM_cons, hb, hbs]; rfl, hall.cons hb⟩

/-- If every pair is as the relation says exactly when `P` holds of the first, all are when `P`
holds of all. -/
theorem forall₂_iff_forall {α β : Type} {R S : α → β → Prop} {P : α → Prop}
    (h : ∀ a b, R a b → (S a b ↔ P a)) :
    ∀ {l : List α} {bs : List β}, List.Forall₂ R l bs → (List.Forall₂ S l bs ↔ ∀ a ∈ l, P a)
  | [], [], _ => ⟨fun _ _ ha => (by cases ha), fun _ => .nil⟩
  | a :: l, b :: bs, .cons hab hl => by
    rw [List.forall₂_cons, List.forall_mem_cons, h a b hab, forall₂_iff_forall h hl]

theorem element_object {text : Str} {members : List (Str × Value F)}
    (hread : lib.read text = .ok (.object members)) (key : Str) :
    ∃ out, element lib (Value.store lib.ofInt (.object members)) key = .ok out
      ∧ (Describes lib (members.lookup key) out
        ↔ ∀ n, members.lookup key = some (.integer n) → ¬ Wraps n) := by
  have hmember : (Value.store lib.ofInt (.object members)).member? key
      = (members.lookup key).map (Value.store lib.ofInt) :=
    storeMembers_lookup lib.ofInt key members
  unfold element
  rw [hmember]
  rcases hv : members.lookup key with _ | v
  · exact ⟨_, rfl, fun _ _ h => (by cases h), fun _ => .absent⟩
  · obtain ⟨str, hdump⟩ := lib.dump_read text members key v hread hv
    obtain ⟨out, hout, hiff⟩ := logValue_store hdump
    refine ⟨out, hout, hiff.trans ?_⟩
    simp only [Option.some.injEq]

/-- Whatever has been read, every key gets a value. -/
theorem element_ok {text : Str} {v : Value F} (hread : lib.read text = .ok v) (key : Str) :
    ∃ out, element lib (v.store lib.ofInt) key = .ok out := by
  cases v with
  | object members =>
    obtain ⟨out, hout, -⟩ := element_object hread key
    exact ⟨out, hout⟩
  | integer n =>
    refine ⟨.unknown false [], ?_⟩
    rw [Value.store, storeInteger]
    split_ifs <;> rfl
  | null | boolean | float | string | array => exact ⟨.unknown false [], rfl⟩

/-- Of a JSON object every key is given, in order, as what it is, exactly as long as no integer that
is asked for is from 2^63 on and below 2^64. -/
theorem parse_describes_iff (p : Parser) (lib : Library F) (pre text : Str)
    (members : List (Str × Value F)) (hpre : brace ∉ pre) (htext : text.head? = some brace)
    (hread : lib.read text = .ok (.object members)) :
    ∃ values, p.parse lib (pre ++ text) = .ok values
      ∧ (List.Forall₂ (fun key value => Describes lib (members.lookup key) value) p.jsonKeys values
        ↔ ∀ key ∈ p.jsonKeys, ∀ n, members.lookup key = some (.integer n) →
          ¬ (2 ^ 63 ≤ n ∧ n < 2 ^ 64)) := by
  have hjson : parseJson lib text = .ok (Value.store lib.ofInt (.object members)) := by
    rw [parseJson, hread]
  obtain ⟨values, hvalues, hall⟩ := mapM_ok (l := p.jsonKeys) fun key _ => element_ok hread key
  refine ⟨values, ?_, forall₂_iff_forall (fun key value hout => ?_) hall⟩
  · rw [parse_append p lib hpre htext, hjson]
    exact hvalues
  · obtain ⟨out, hout', hiff⟩ := element_object hread key
    rw [hout] at hout'
    obtain rfl := Except.ok.inj hout'
    exact hiff

/-- The library, as far as one text goes and no value is written. -/
def reading (text : Str) (r : Except ReadError (Value ℤ)) : Library ℤ where
  read t := if t = text then r else .error (.parseError [])
  ofInt n := n
  toInt64 n := .ofInt n
  toUInt64 n := .ofInt n
  dump _ := some []
  dump_read _ _ _ _ _ _ := ⟨[], rfl⟩

theorem reading_read (text : Str) (r : Except ReadError (Value ℤ)) :
    (reading text r).read text = r := by
  show (if text = text then r else _) = r
  rw [if_pos rfl]

/-- A line with a status and no user, of which the user is asked for twice. -/
theorem parse_describes_iff_line :
    let text := bytes "\x7b\"status\":200,\"user\":null\x7d"
    let members : List (Str × Value ℤ) := [(bytes "status", .integer 200), (bytes "user", .null)]
    let lib := reading text (.ok (.object members))
    let p : Parser := ⟨[bytes "user", bytes "status", bytes "time", bytes "user"], by simp⟩
    ∃ values, p.parse lib (bytes "nginx: " ++ text) = .ok values
      ∧ (List.Forall₂ (fun key value => Describes lib (members.lookup key) value) p.jsonKeys values
        ↔ ∀ key ∈ p.jsonKeys, ∀ n, members.lookup key = some (.integer n) →
          ¬ (2 ^ 63 ≤ n ∧ n < 2 ^ 64)) :=
  parse_describes_iff _ _ _ _ _ (by decide) (by decide) (reading_read _ _)

/-- What is given as an `int64_t` is that integer. -/
theorem Describes.toInt_eq {v : Option (Value F)} {out : LogValue F} (h : Describes lib v out)
    {n : ℤ} {k : Int64} (hv : v = some (.integer n)) (hout : out = .int64 k) : k.toInt = n := by
  cases h <;> cases hout
  cases hv
  rfl

/-- 2^63 comes out as -2^63. -/
theorem parse_describes_large :
    let text := bytes "\x7b\"a\":9223372036854775808\x7d"
    let members : List (Str × Value ℤ) := [(bytes "a", .integer 9223372036854775808)]
    let lib := reading text (.ok (.object members))
    let p : Parser := ⟨[bytes "a"], by simp⟩
    p.parse lib text = .ok [.int64 (-9223372036854775808)]
      ∧ ¬ List.Forall₂ (fun key value => Describes lib (members.lookup key) value) p.jsonKeys
        [.int64 (-9223372036854775808)] := by
  intro text members lib p
  refine ⟨?_, fun h => ?_⟩
  · have hread : lib.read text = .ok (.object members) := reading_read _ _
    have hjson : parseJson lib text = .ok (Value.store lib.ofInt (.object members)) := by
      rw [parseJson, hread]
    rw [← List.nil_append text, parse_append p lib List.not_mem_nil (by decide), hjson]
    rfl
  · obtain ⟨hd, -⟩ := List.forall₂_cons.1 h
    have hn := hd.toInt_eq rfl rfl
    exact absurd hn (by decide)

/-! ## How it fails -/

/-- It returns, or throws a `std::runtime_error`. -/
def Declared {α : Type} : Except Exception α → Prop
  | .ok _ | .error (.runtimeError _) => True
  | .error .outOfRange | .error (.jsonOutOfRange _) | .error .jsonTypeError => False

theorem parse_declared_append (p : Parser) (lib : Library F) {pre text : Str} (hpre : brace ∉ pre)
    (htext : text.head? = some brace) :
    Declared (p.parse lib (pre ++ text)) ↔ ∀ what, lib.read text ≠ .error (.outOfRange what) := by
  rw [parse_append p lib hpre htext, parseJson]
  rcases hread : lib.read text with (what | what) | v
  · exact ⟨fun _ _ h => (by cases h), fun _ => trivial⟩
  · exact ⟨fun h => h.elim, fun h => absurd rfl (h what)⟩
  · obtain ⟨values, hvalues, -⟩ := mapM_ok (l := p.jsonKeys) fun key _ => element_ok hread key
    refine ⟨fun _ _ h => (by cases h), fun _ => ?_⟩
    show Declared (p.jsonKeys.mapM (element lib (v.store lib.ofInt)))
    rw [hvalues]
    trivial

/-- The parser fails as it says, and says so where there is no brace, exactly if there is one and
`json::parse` does not throw `json::out_of_range` for what begins there. -/
theorem parse_declared_iff (p : Parser) (lib : Library F) (data : Str) :
    (Declared (p.parse lib data)
        ∧ (brace ∉ data →
          p.parse lib data = .error (.runtimeError (bytes "parser: invalid json"))))
      ↔ brace ∈ data
        ∧ ∀ what, lib.read (data.dropWhile (· ≠ brace)) ≠ .error (.outOfRange what) := by
  by_cases h : brace ∈ data
  · obtain ⟨pre, hpre, hdata, htext⟩ := span_brace h
    have hiff := parse_declared_append p lib hpre htext
    rw [← hdata] at hiff
    simp only [h, not_true_eq_false, false_imp_iff, and_true, true_and]
    exact hiff
  · rw [parse_no_brace p lib h]
    exact ⟨fun hd => hd.1.elim, fun hd => absurd hd.1 h⟩

/-- `abc`, and a number too large for a `double`. -/
theorem parse_undeclared :
    let p : Parser := ⟨[bytes "a"], by simp⟩
    let text := bytes "\x7b\"a\":1e400\x7d"
    let lib := reading text (.error (.outOfRange []))
    ¬ Declared (p.parse lib (bytes "abc")) ∧ ¬ Declared (p.parse lib text) := by
  intro p text lib
  refine ⟨?_, ?_⟩
  · rw [parse_no_brace p lib (by decide)]
    exact id
  · have hread : lib.read text = .error (.outOfRange []) := reading_read _ _
    have hjson : parseJson lib text = .error (.jsonOutOfRange []) := by
      rw [parseJson, hread]
    rw [← List.nil_append text, parse_append p lib List.not_mem_nil (by decide), hjson]
    exact id

end Parser

end XCache
