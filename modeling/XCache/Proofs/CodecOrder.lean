import XCache.Proofs.Codec

/-!
# The order of the encodings

The encoding of an integer is the big-endian encoding of a number of the field's width, and those
numbers are ordered as the integers are (`serializeImpl_word`). Widths are fixed, so the fields of
two lists of the same types line up and the first that differs decides.
-/

namespace XCache

namespace RedisAdapter

open BigEndian

/-- The integer a field holds, if it is an integer field. -/
def FieldType.number : (t : FieldType) → t.Value → List ℤ
  | .int, val => [val.toInt]
  | .int64, val => [val.toInt]
  | .uint64, val => [(val.toNat : ℤ)]
  | .string, _ => []

/-- The numeric values of the integer fields. -/
def numbers : (ts : List FieldType) → Values ts → List ℤ
  | [], _ => []
  | t :: ts, (v, vs) => t.number v ++ numbers ts vs

/-! ## Fields -/

section Field

variable {t : FieldType}

/-- An integer field is the big-endian encoding of its value, counted from the least value up. -/
theorem serializeImpl_word (ht : t ≠ .string) :
    ∃ (w : ℕ) (least : ℤ), ∀ v : t.Value, ∃ (n : ℕ) (z : ℤ), n < 256 ^ w ∧ (n : ℤ) = z - least
      ∧ serializeImpl t v = encode w n ∧ t.number v = [z] := by
  cases t with
  | int =>
    refine ⟨4, -2 ^ 31, fun v => ⟨_, v.toInt, ?_, ?_, putWord_eq (by omega) 4 _, rfl⟩⟩
    · exact BitVec.isLt _
    · have hflip : ((v.toBitVec ^^^ 0x80000000#32).toNat : ℤ) = v.toBitVec.toInt + 2 ^ 31 :=
        toNat_flip (n := 31) v.toBitVec
      rw [Int32.toInt]
      omega
  | int64 =>
    refine ⟨8, -2 ^ 63, fun v => ⟨_, v.toInt, ?_, ?_, putWord_eq (by omega) 8 _, rfl⟩⟩
    · exact BitVec.isLt _
    · have hflip : ((v.toBitVec ^^^ 0x8000000000000000#64).toNat : ℤ)
          = v.toBitVec.toInt + 2 ^ 63 := toNat_flip (n := 63) v.toBitVec
      rw [Int64.toInt]
      omega
  | uint64 =>
    refine ⟨8, 0, fun v => ⟨_, v.toNat, ?_, ?_, putWord_eq (by omega) 8 _, rfl⟩⟩
    · exact BitVec.isLt _
    · rw [sub_zero]
      rfl
  | string => exact absurd rfl ht

/-- Where the encodings of an integer field's values part, and where its values do. -/
theorem serializeImpl_lt (ht : t ≠ .string) (a b : t.Value) (s s' : Str) (l l' : List ℤ) :
    (t.number a = t.number b ∧ serializeImpl t a = serializeImpl t b)
      ∨ t.number a ≠ t.number b ∧ (serializeImpl t a ++ s < serializeImpl t b ++ s'
        ↔ t.number a ++ l < t.number b ++ l') := by
  obtain ⟨w, least, hword⟩ := serializeImpl_word ht
  obtain ⟨m, x, hm, hmx, hserm, hx⟩ := hword a
  obtain ⟨n, y, hn, hny, hsern, hy⟩ := hword b
  by_cases hxy : x = y
  · have hmn : m = n := by omega
    exact .inl ⟨by rw [hx, hy, hxy], by rw [hserm, hsern, hmn]⟩
  · have hmn : m ≠ n := by omega
    have hlt : m < n ↔ x < y := by omega
    refine .inr ⟨by simpa [hx, hy] using hxy, ?_⟩
    rw [hserm, hsern, hx, hy, append_lt_append (by simp), encode_lt_encode hm hn, encode_inj hm hn]
    simp [hxy, hmn, hlt, List.cons_lt_cons_iff]

end Field

/-! ## Lists of fields -/

/-- No field stands after a string but another string. -/
def StringsLast : List FieldType → Prop
  | [] => True
  | t :: ts => (t = .string → ∀ t' ∈ ts, t' = .string) ∧ StringsLast ts

theorem numbers_strings :
    ∀ {ts : List FieldType}, (∀ t ∈ ts, t = .string) → ∀ vs : Values ts, numbers ts vs = []
  | [], _, _ => rfl
  | t :: ts, h, (v, vs) => by
    obtain ⟨ht, hts⟩ := List.forall_mem_cons.1 h
    subst ht
    exact numbers_strings hts vs

theorem stringsLast_append {us : List FieldType} (hus : ∀ t ∈ us, t = .string) :
    ∀ {ts : List FieldType}, (∀ t ∈ ts, t ≠ .string) → StringsLast (ts ++ us)
  | [], _ => by
    induction us with
    | nil => trivial
    | cons t us ih =>
      have hrest := (List.forall_mem_cons.1 hus).2
      exact ⟨fun _ => hrest, ih hrest⟩
  | t :: ts, h => by
    obtain ⟨ht, hts⟩ := List.forall_mem_cons.1 h
    exact ⟨fun h0 => absurd h0 ht, stringsLast_append hus hts⟩

/-- The integer fields decide the order of the encodings whenever they differ. -/
theorem serialize_lt :
    ∀ {ts : List FieldType}, StringsLast ts → ∀ u v : Values ts, numbers ts u ≠ numbers ts v →
      (serialize ts u < serialize ts v ↔ numbers ts u < numbers ts v)
  | [], _, _, _, hne => absurd rfl hne
  | t :: ts, ⟨hlast, hts⟩, (a, u), (b, v), hne => by
    by_cases ht : t = .string
    · have hts := hlast ht
      subst ht
      exact absurd ((numbers_strings hts u).trans (numbers_strings hts v).symm) hne
    · rcases serializeImpl_lt ht a b (serialize ts u) (serialize ts v) (numbers ts u)
        (numbers ts v) with ⟨hnum, hser⟩ | ⟨-, hlt⟩
      · simp only [numbers, hnum, ne_eq, List.append_cancel_left_eq] at hne
        have ih := serialize_lt hts u v hne
        obtain ⟨w, least, hword⟩ := serializeImpl_word ht
        obtain ⟨n, y, -, -, -, hy⟩ := hword b
        rw [serialize, serialize, numbers, numbers, hnum, hser, hy, append_lt_append rfl, ih]
        simp
      · exact hlt

theorem serialize_congr :
    ∀ {ts : List FieldType}, (∀ t ∈ ts, t ≠ .string) → ∀ u v : Values ts,
      numbers ts u = numbers ts v → serialize ts u = serialize ts v
  | [], _, _, _, _ => rfl
  | t :: ts, h, (a, u), (b, v), hnum => by
    obtain ⟨ht, hts⟩ := List.forall_mem_cons.1 h
    obtain ⟨w, least, hword⟩ := serializeImpl_word ht
    obtain ⟨m, x, -, hmx, hserm, hx⟩ := hword a
    obtain ⟨n, y, -, hny, hsern, hy⟩ := hword b
    rw [numbers, numbers, hx, hy, List.singleton_append, List.singleton_append,
      List.cons.injEq] at hnum
    have hmn : m = n := by omega
    rw [serialize, serialize, hserm, hsern, hmn, serialize_congr hts u v hnum.2]

/-- For every list of integer types, encodings compare byte by byte as the lists of values do; with
a string field behind, they still do wherever the integers differ. -/
theorem serialize_lt_iff (ts : List FieldType) (hts : ∀ t ∈ ts, t ≠ .string) :
    (∀ u v : Values ts, serialize ts u < serialize ts v ↔ numbers ts u < numbers ts v)
      ∧ ∀ u v : Values (ts ++ [FieldType.string]),
        numbers (ts ++ [FieldType.string]) u ≠ numbers (ts ++ [FieldType.string]) v →
        (serialize (ts ++ [FieldType.string]) u < serialize (ts ++ [FieldType.string]) v
          ↔ numbers (ts ++ [FieldType.string]) u < numbers (ts ++ [FieldType.string]) v) := by
  have hlast := stringsLast_append (List.forall_mem_nil (· = FieldType.string)) hts
  rw [List.append_nil] at hlast
  refine ⟨fun u v => ?_, serialize_lt (stringsLast_append (by simp) hts)⟩
  by_cases hnum : numbers ts u = numbers ts v
  · rw [serialize_congr hts u v hnum, hnum]
    simp
  · exact serialize_lt hlast u v hnum

/-- Fields of both widths, signed and unsigned. -/
theorem serialize_lt_iff_three :
    let ts : List FieldType := [.int, .uint64, .int64]
    (∀ u v : Values ts, serialize ts u < serialize ts v ↔ numbers ts u < numbers ts v)
      ∧ ∀ u v : Values (ts ++ [FieldType.string]),
        numbers (ts ++ [FieldType.string]) u ≠ numbers (ts ++ [FieldType.string]) v →
        (serialize (ts ++ [FieldType.string]) u < serialize (ts ++ [FieldType.string]) v
          ↔ numbers (ts ++ [FieldType.string]) u < numbers (ts ++ [FieldType.string]) v) :=
  serialize_lt_iff [.int, .uint64, .int64] (by decide)

end RedisAdapter

end XCache
