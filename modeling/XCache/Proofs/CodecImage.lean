import XCache.Proofs.Codec

/-!
# What the decoder accepts

Whatever the string, `deserialize` reads inside it, and what a field accepts is the field's own
encoding: the bytes it has passed over are those `serializeImpl` writes (`deserializeImpl_image`).
With the check of the final offset, the strings accepted are the encodings and no others.
-/

namespace XCache

namespace RedisAdapter

open BigEndian

/-! ## Words -/

/-- A word that lies inside the string is read without a fault. -/
theorem getWord_drop {n : ℕ} {str : Str} {offset w : ℕ} (h : offset + w ≤ str.length) :
    getWord n str offset w = some (BitVec.ofNat n (decode ((str.drop offset).take w))) := by
  have hpre : (str.take offset).length = offset := by
    rw [List.length_take]
    omega
  have hword : ((str.drop offset).take w).length = w := by
    rw [List.length_take, List.length_drop]
    omega
  have hget := getWord_append n (str.take offset) ((str.drop offset).take w)
    ((str.drop offset).drop w)
  rwa [List.append_assoc, List.take_append_drop, List.take_append_drop, hpre, hword] at hget

/-- Writing what has been read gives back the bytes. -/
theorem putWord_decode {n w : ℕ} (hn : n = 8 * w) (hw : 0 < w) {bs : Str} (hbs : bs.length = w) :
    putWord w (BitVec.ofNat n (decode bs)) = bs := by
  have hlt : decode bs < 2 ^ n := by
    have := decode_lt bs
    rw [hn, pow_mul]
    rwa [hbs] at this
  rw [putWord_eq (by omega), BitVec.toNat_ofNat, Nat.mod_eq_of_lt hlt]
  subst hbs
  exact encode_decode bs

/-! ## Fields -/

section Field

variable {str : Str} {offset : ℕ}

/-- A field is read inside the string, and where it succeeds the bytes it passes over are its own
encoding. -/
def Image {α : Type} (short : α → Prop) (put : α → Str) (str : Str) (offset : ℕ)
    (res : Option (Bool × ℕ × α)) : Prop :=
  ∃ ok offset' v, res = some (ok, offset', v) ∧ (ok = true →
    offset' ≤ str.length ∧ short v ∧ str.drop offset = put v ++ str.drop offset')

theorem deserializeInt_image {α : Type} {n w : ℕ} (hn : n = 8 * w) (hw : 0 < w)
    {cast : BitVec n → α} {put : α → Str} (hput : ∀ u, put (cast u) = putWord w u) (x : α) :
    Image (fun _ => True) put str offset (deserializeInt w cast str offset x) := by
  unfold deserializeInt
  by_cases hend : offset + w > str.length
  · rw [if_pos hend]
    exact ⟨false, offset, x, rfl, by simp⟩
  · have hword : ((str.drop offset).take w).length = w := by
      rw [List.length_take, List.length_drop]
      omega
    rw [if_neg hend, getWord_drop (by omega)]
    refine ⟨true, offset + w, _, rfl, fun _ => ⟨by omega, trivial, ?_⟩⟩
    rw [hput, putWord_decode hn hw hword, ← List.drop_drop, List.take_append_drop]

theorem deserializeString_image (x : Str) :
    Image (FieldType.Short .string) (serializeImpl .string) str offset
      (deserializeString str offset x) := by
  unfold deserializeString
  by_cases hend : offset + 4 > str.length
  · rw [if_pos hend]
    exact ⟨false, offset, x, rfl, by simp⟩
  · have hword : ((str.drop offset).take 4).length = 4 := by
      rw [List.length_take, List.length_drop]
      omega
    rw [if_neg hend, getWord_drop (by omega)]
    simp only [Option.bind_eq_bind, Option.bind_some]
    generalize hlen : BitVec.ofNat 32 (decode ((str.drop offset).take 4)) = len
    have hprefix : putWord 4 len = (str.drop offset).take 4 := by
      rw [← hlen, putWord_decode rfl (by omega) hword]
    by_cases hstr : offset + 4 + len.toNat > str.length
    · rw [if_pos hstr]
      exact ⟨false, offset + 4, x, rfl, by simp⟩
    · have hbody : ((str.drop (offset + 4)).take len.toNat).length = len.toNat := by
        rw [List.length_take, List.length_drop]
        omega
      have hlt := len.isLt
      rw [if_neg hstr]
      refine ⟨true, offset + 4 + len.toNat, _, rfl, fun _ => ⟨by omega, ?_, ?_⟩⟩
      · rw [FieldType.Short, hbody]
        exact hlt
      · rw [serializeImpl, hbody, BitVec.ofNat_toNat, BitVec.setWidth_eq, hprefix,
          List.append_assoc, ← List.drop_drop (i := len.toNat), List.take_append_drop,
          ← List.drop_drop, List.take_append_drop]

theorem deserializeImpl_image (t : FieldType) (x : t.Value) :
    Image t.Short (serializeImpl t) str offset (deserializeImpl t str offset x) := by
  cases t with
  | int =>
    refine deserializeInt_image rfl (by omega) (fun u => ?_) x
    rw [serializeImpl, Int32.toBitVec_ofBitVec, BitVec.xor_assoc, BitVec.xor_self,
      BitVec.xor_zero]
  | int64 =>
    refine deserializeInt_image rfl (by omega) (fun u => ?_) x
    rw [serializeImpl, Int64.toBitVec_ofBitVec, BitVec.xor_assoc, BitVec.xor_self,
      BitVec.xor_zero]
  | uint64 =>
    refine deserializeInt_image (n := 64) rfl (by omega) (fun u => ?_) x
    rw [serializeImpl, UInt64.toBitVec_ofBitVec]
  | string => exact deserializeString_image x

end Field

/-! ## Lists of fields -/

/-- From any offset inside the string on, the fields are read without a fault; if all succeed and
the offset ends at the end, the rest of the string is their encoding. -/
theorem deserializeAll_image (str : Str) :
    ∀ (ts : List FieldType) (offset : ℕ) (xs : Values ts), offset ≤ str.length →
      ∃ ok offset' vs, deserializeAll ts str offset xs = some (ok, offset', vs) ∧
        (ok = true → Short ts vs ∧ str.drop offset = serialize ts vs)
  | [], offset, (), h => by
    refine ⟨_, offset, (), rfl, fun hok => ⟨trivial, ?_⟩⟩
    rw [decide_eq_true_eq] at hok
    rw [hok, List.drop_length]
    rfl
  | t :: ts, offset, (x, xs), h => by
    have himage : Image t.Short (serializeImpl t) str offset (deserializeImpl t str offset x) :=
      deserializeImpl_image t x
    obtain ⟨ok, offset₁, v, hfield, hv⟩ := himage
    rw [deserializeAll, hfield]
    simp only [Option.bind_eq_bind, Option.bind_some]
    cases ok with
    | false => exact ⟨false, offset₁, (v, xs), rfl, by simp⟩
    | true =>
      obtain ⟨hle, hshort, hdrop⟩ := hv rfl
      obtain ⟨ok', offset₂, vs, hrest, hvs⟩ := deserializeAll_image str ts offset₁ xs hle
      rw [if_neg (by simp), hrest]
      refine ⟨ok', offset₂, (v, vs), rfl, fun hok => ?_⟩
      obtain ⟨hshorts, hdrop'⟩ := hvs hok
      exact ⟨⟨hshort, hshorts⟩, by rw [hdrop, hdrop']; rfl⟩

/-- For every string and every list of field types, `deserialize` reads inside the string, and it
returns true exactly if the string is the encoding of some values: of those it outputs and of no
others. -/
theorem deserialize_image (ts : List FieldType) (str : Str) (xs : Values ts) :
    ∃ ok ys, deserialize ts str xs = some (ok, ys)
      ∧ (ok = true ↔ ∃ vs, Short ts vs ∧ str = serialize ts vs)
      ∧ ∀ vs, Short ts vs → str = serialize ts vs → vs = ys := by
  obtain ⟨ok, offset, ys, hall, hys⟩ := deserializeAll_image str ts 0 xs (Nat.zero_le _)
  have hdes : deserialize ts str xs = some (ok, ys) := by
    rw [deserialize, hall]
    rfl
  have henc : ∀ vs, Short ts vs → str = serialize ts vs → ok = true ∧ ys = vs := by
    intro vs hshort hstr
    have hround := deserializeAll_serialize ts vs xs [] hshort
    rw [List.nil_append, List.length_nil, ← hstr, hall, Option.some.injEq, Prod.mk.injEq,
      Prod.mk.injEq] at hround
    exact ⟨hround.1, hround.2.2⟩
  refine ⟨ok, ys, hdes, ⟨fun hok => ⟨ys, ?_⟩, ?_⟩, fun vs hs h => (henc vs hs h).2.symm⟩
  · simpa using hys hok
  · rintro ⟨vs, hshort, hstr⟩
    exact (henc vs hshort hstr).1

end RedisAdapter

end XCache
