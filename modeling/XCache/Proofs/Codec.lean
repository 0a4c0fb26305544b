import XCache.RedisCodec
import XCache.Lib.BigEndian

/-!
# Decoding what has been encoded

A field is read from where it was written, whatever stands before and after it
(`deserializeImpl_serializeImpl`); so the fields of a list come out one after the other.
-/

namespace XCache

namespace RedisAdapter

open BigEndian

/-! ## Words -/

theorem putWord_eq {n : ℕ} (hn : 8 ≤ n) (w : ℕ) (u : BitVec n) :
    putWord w u = encode w u.toNat := by
  rw [encode_eq_map]
  exact List.map_congr_left fun i _ => shift_mask hn u _

theorem putWord_length {n : ℕ} (w : ℕ) (u : BitVec n) : (putWord w u).length = w := by
  simp [putWord]

/-- The loop reads the bytes `bs` from where they stand. -/
theorem getWord_append (n : ℕ) (pre bs suf : Str) :
    getWord n (pre ++ bs ++ suf) pre.length bs.length = some (BitVec.ofNat n (decode bs)) := by
  induction bs using List.reverseRecOn generalizing suf with
  | nil => rfl
  | append_singleton bs b ih =>
    have hread : (pre ++ (bs ++ [b]) ++ suf)[pre.length + bs.length]? = some b := by
      rw [List.append_assoc, List.getElem?_append_right (by omega), Nat.add_sub_cancel_left]
      simp
    have hrest := ih ([b] ++ suf)
    rw [show pre ++ bs ++ ([b] ++ suf) = pre ++ (bs ++ [b]) ++ suf by simp] at hrest
    unfold getWord at hrest ⊢
    rw [List.length_append, List.length_singleton, List.range_succ, List.foldlM_append, hrest]
    simp only [List.foldlM_cons, List.foldlM_nil, Option.bind_eq_bind, Option.bind_some, hread]
    rw [decode_append_singleton, ← shift_or]
    rfl

/-- A word of `w` bytes is read as it was written. -/
theorem getWord_putWord {n w : ℕ} (hn : n = 8 * w) (hw : 0 < w) (u : BitVec n) (pre suf : Str) :
    getWord n (pre ++ putWord w u ++ suf) pre.length w = some u := by
  have hlen := putWord_length w u
  have h := getWord_append n pre (putWord w u) suf
  rw [hlen] at h
  rw [h, putWord_eq (by omega), decode_encode, Nat.mod_eq_of_lt, BitVec.ofNat_toNat,
    BitVec.setWidth_eq]
  subst hn
  have hlt := u.isLt
  rwa [pow_mul] at hlt

/-! ## Fields -/

section Field

variable (pre suf : Str)

theorem deserializeInt_putWord {α : Type} {n w : ℕ} (hn : n = 8 * w) (hw : 0 < w) (u : BitVec n)
    (cast : BitVec n → α) (x : α) :
    deserializeInt w cast (pre ++ putWord w u ++ suf) pre.length x
      = some (true, pre.length + w, cast u) := by
  have hlen := putWord_length w u
  unfold deserializeInt
  rw [if_neg (by simp only [List.length_append, hlen]; omega), getWord_putWord hn hw]
  rfl

theorem deserializeString_serializeImpl {str : Str} (h : str.length < 2 ^ 32) (x : Str) :
    deserializeString (pre ++ serializeImpl .string str ++ suf) pre.length x
      = some (true, pre.length + (serializeImpl .string str).length, str) := by
  have hword : (putWord 4 (BitVec.ofNat 32 str.length)).length = 4 := putWord_length _ _
  have hlen : (BitVec.ofNat 32 str.length).toNat = str.length := by
    rw [BitVec.toNat_ofNat, Nat.mod_eq_of_lt h]
  have hget := getWord_putWord (w := 4) rfl (by omega) (BitVec.ofNat 32 str.length) pre (str ++ suf)
  have hassoc : pre ++ serializeImpl .string str ++ suf
      = pre ++ putWord 4 (BitVec.ofNat 32 str.length) ++ (str ++ suf) := by
    simp [serializeImpl]
  unfold deserializeString
  rw [hassoc, if_neg (by simp only [List.length_append, hword]; omega), hget]
  simp only [Option.bind_eq_bind, Option.bind_some, hlen]
  rw [if_neg (by simp only [List.length_append, hword]; omega)]
  have hdrop : (pre ++ putWord 4 (BitVec.ofNat 32 str.length) ++ (str ++ suf)).drop
      (pre.length + 4) = str ++ suf :=
    List.drop_left' (by rw [List.length_append, hword])
  rw [hdrop, List.take_left, serializeImpl, List.length_append, hword, Nat.add_assoc]
  rfl

/-- Strings are shorter than their length prefix can say. -/
def FieldType.Short : (t : FieldType) → t.Value → Prop
  | .string, str => str.length < 2 ^ 32
  | .int, _ => True
  | .int64, _ => True
  | .uint64, _ => True

theorem deserializeImpl_serializeImpl (t : FieldType) (v x : t.Value) (h : t.Short v) :
    deserializeImpl t (pre ++ serializeImpl t v ++ suf) pre.length x
      = some (true, pre.length + (serializeImpl t v).length, v) := by
  cases t with
  | int =>
    rw [deserializeImpl, serializeImpl, putWord_length,
      deserializeInt_putWord pre suf rfl (by omega)]
    rw [BitVec.xor_assoc, BitVec.xor_self, BitVec.xor_zero, Int32.ofBitVec_toBitVec]
  | int64 =>
    rw [deserializeImpl, serializeImpl, putWord_length,
      deserializeInt_putWord pre suf rfl (by omega)]
    rw [BitVec.xor_assoc, BitVec.xor_self, BitVec.xor_zero, Int64.ofBitVec_toBitVec]
  | uint64 =>
    rw [deserializeImpl, serializeImpl, putWord_length,
      deserializeInt_putWord pre suf rfl (by omega)]
  | string => exact deserializeString_serializeImpl pre suf h x

end Field

/-! ## Lists of fields -/

def Short : (ts : List FieldType) → Values ts → Prop
  | [], _ => True
  | t :: ts, (v, vs) => t.Short v ∧ Short ts vs

/-- The fields after the prefix `pre` come out as they went in, and the offset ends at the end. -/
theorem deserializeAll_serialize :
    ∀ (ts : List FieldType) (vs xs : Values ts) (pre : Str), Short ts vs →
      deserializeAll ts (pre ++ serialize ts vs) pre.length xs
        = some (true, (pre ++ serialize ts vs).length, vs)
  | [], (), (), pre, _ => by simp [deserializeAll, serialize]
  | t :: ts, (v, vs), (x, xs), pre, h => by
    have hfield := deserializeImpl_serializeImpl pre (serialize ts vs) t v x h.1
    have hrest := deserializeAll_serialize ts vs xs (pre ++ serializeImpl t v) h.2
    rw [List.length_append] at hrest
    rw [deserializeAll, serialize, ← List.append_assoc, hfield]
    simp only [Option.bind_eq_bind, Option.bind_some]
    rw [if_neg (by decide), hrest]
    rfl

/-- For every list of field types, decoding what has been encoded returns true and gives back the
values, whatever the outputs held before. -/
theorem deserialize_serialize (ts : List FieldType) (vs xs : Values ts) (h : Short ts vs) :
    deserialize ts (serialize ts vs) xs = some (true, vs) := by
  have hall := deserializeAll_serialize ts vs xs [] h
  rw [List.nil_append, List.length_nil] at hall
  rw [deserialize, hall]
  rfl

/-- A negative number of each width, the greatest unsigned one, and bytes a C string cannot hold. -/
theorem deserialize_serialize_four :
    let ts : List FieldType := [.int, .int64, .uint64, .string]
    let vs : Values ts := (-5, -1, 18446744073709551615, [0, 255, 0], ())
    let xs : Values ts := (0, 0, 0, [], ())
    deserialize ts (serialize ts vs) xs = some (true, vs) :=
  deserialize_serialize [.int, .int64, .uint64, .string] _ _
    ⟨trivial, trivial, trivial, by unfold FieldType.Short; decide, trivial⟩

end RedisAdapter

end XCache
