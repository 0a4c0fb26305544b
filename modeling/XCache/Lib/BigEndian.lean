import Mathlib

/-!
# Big-endian numbers

`encode w n` is the last `w` bytes of `n`, most significant first; `decode` reads them back. A word
is written by shifting it right and masking (`shift_mask`), and read by shifting left and or-ing the
next byte in (`shift_or`). Numbers of one width compare as their bytes do (`encode_lt_encode`), and
signed ones with the sign bit flipped as unsigned ones (`toNat_flip`).
-/

namespace XCache

namespace BigEndian

def encode : ℕ → ℕ → List UInt8
  | 0, _ => []
  | w + 1, n => encode w (n / 256) ++ [UInt8.ofNat n]

def decode (bs : List UInt8) : ℕ := bs.foldl (fun n b => n * 256 + b.toNat) 0

/-- The bytes of a number, each by its place. -/
theorem encode_eq_map (w n : ℕ) :
    encode w n = (List.range w).map fun i => UInt8.ofNat (n / 2 ^ (8 * w - 8 - 8 * i)) := by
  induction w generalizing n with
  | zero => rfl
  | succ w ih =>
    rw [encode, ih, List.range_succ, List.map_append, List.map_singleton]
    congr 1
    · refine List.map_congr_left fun i hi => ?_
      have hi := List.mem_range.1 hi
      rw [Nat.div_div_eq_div_mul, show (256 : ℕ) = 2 ^ 8 from rfl, ← pow_add]
      congr 3
      omega
    · rw [show 8 * (w + 1) - 8 - 8 * w = 0 by omega, pow_zero, Nat.div_one]

theorem decode_append_singleton (bs : List UInt8) (b : UInt8) :
    decode (bs ++ [b]) = decode bs * 256 + b.toNat := by
  rw [decode, List.foldl_append]
  rfl

theorem decode_encode (w n : ℕ) : decode (encode w n) = n % 256 ^ w := by
  induction w generalizing n with
  | zero =>
    rw [pow_zero, Nat.mod_one]
    rfl
  | succ w ih =>
    have hsplit : n % 256 ^ (w + 1) = n % 256 + 256 * (n / 256 % 256 ^ w) := by
      rw [pow_succ', Nat.mod_mul]
    rw [encode, decode_append_singleton, ih, UInt8.toNat_ofNat', hsplit]
    omega

@[simp] theorem encode_length (w n : ℕ) : (encode w n).length = w := by
  induction w generalizing n with
  | zero => rfl
  | succ w ih => simp [encode, ih]

theorem decode_lt (bs : List UInt8) : decode bs < 256 ^ bs.length := by
  induction bs using List.reverseRecOn with
  | nil => simp [decode]
  | append_singleton bs b ih =>
    have hb : b.toNat < 256 := b.toNat_lt
    rw [decode_append_singleton, List.length_append, List.length_singleton, pow_succ]
    omega

/-- Every byte string is the encoding of a number. -/
theorem encode_decode (bs : List UInt8) : encode bs.length (decode bs) = bs := by
  induction bs using List.reverseRecOn with
  | nil => rfl
  | append_singleton bs b ih =>
    have hb : b.toNat < 256 := b.toNat_lt
    rw [decode_append_singleton, List.length_append, List.length_singleton, encode]
    rw [show (decode bs * 256 + b.toNat) / 256 = decode bs by omega, ih]
    congr 2
    rw [← UInt8.toNat_inj, UInt8.toNat_ofNat']
    omega

/-- `(u >> k) & 0xFF`, as a byte. -/
theorem shift_mask {n : ℕ} (hn : 8 ≤ n) (u : BitVec n) (k : ℕ) :
    UInt8.ofNat ((u >>> k) &&& 0xFF).toNat = UInt8.ofNat (u.toNat / 2 ^ k) := by
  have h255 : (0xFF : BitVec n).toNat = 2 ^ 8 - 1 := by
    have hle : 2 ^ 8 ≤ 2 ^ n := Nat.pow_le_pow_right (by omega) hn
    show (BitVec.ofNat n 255).toNat = 255
    rw [BitVec.toNat_ofNat, Nat.mod_eq_of_lt (by omega)]
  rw [← UInt8.toNat_inj, UInt8.toNat_ofNat', UInt8.toNat_ofNat', BitVec.toNat_and, h255,
    Nat.and_two_pow_sub_one_eq_mod, BitVec.toNat_ushiftRight, Nat.shiftRight_eq_div_pow,
    Nat.mod_mod]

/-- `(u << 8) | b`, where `u` has read `m` already. -/
theorem shift_or {n : ℕ} (m : ℕ) (b : UInt8) :
    (BitVec.ofNat n m <<< 8) ||| BitVec.ofNat n b.toNat = BitVec.ofNat n (m * 256 + b.toNat) := by
  have hb : b.toNat < 2 ^ 8 := b.toNat_lt
  apply BitVec.eq_of_toNat_eq
  rw [BitVec.toNat_or, BitVec.toNat_shiftLeft, BitVec.toNat_ofNat, BitVec.toNat_ofNat,
    BitVec.toNat_ofNat, ← Nat.or_mod_two_pow, ← Nat.shiftLeft_add_eq_or_of_lt hb,
    Nat.shiftLeft_eq, Nat.add_mod, Nat.mod_mul_mod, ← Nat.add_mod]

/-! ## Order -/

/-- Strings that part before `s` and `t` begin compare as their beginnings do. -/
theorem append_lt_append {a b : List UInt8} (h : a.length = b.length) (s t : List UInt8) :
    a ++ s < b ++ t ↔ a < b ∨ a = b ∧ s < t := by
  induction a generalizing b with
  | nil =>
    have hb : b = [] := List.length_eq_zero_iff.1 h.symm
    simp [hb]
  | cons x a ih =>
    rcases b with _ | ⟨y, b⟩
    · simp at h
    · have hrest := ih (b := b) (by simpa using h)
      rw [List.cons_append, List.cons_append, List.cons_lt_cons_iff, List.cons_lt_cons_iff, hrest,
        List.cons.injEq]
      tauto

theorem encode_inj {w m n : ℕ} (hm : m < 256 ^ w) (hn : n < 256 ^ w) :
    encode w m = encode w n ↔ m = n := by
  refine ⟨fun h => ?_, fun h => by rw [h]⟩
  have hd := congrArg decode h
  rwa [decode_encode, decode_encode, Nat.mod_eq_of_lt hm, Nat.mod_eq_of_lt hn] at hd

/-- Numbers of one width compare as their encodings do. -/
theorem encode_lt_encode {w m n : ℕ} (hm : m < 256 ^ w) (hn : n < 256 ^ w) :
    encode w m < encode w n ↔ m < n := by
  induction w generalizing m n with
  | zero =>
    simp at hm hn
    simp [encode, hm, hn]
  | succ w ih =>
    rw [pow_succ] at hm hn
    have hm' : m / 256 < 256 ^ w := by omega
    have hn' : n / 256 < 256 ^ w := by omega
    have hlast : UInt8.ofNat m < UInt8.ofNat n ↔ m % 256 < n % 256 := by
      rw [UInt8.lt_iff_toNat_lt, UInt8.toNat_ofNat', UInt8.toNat_ofNat']
    rw [encode, encode, append_lt_append (by simp), ih hm' hn', encode_inj hm' hn']
    have hsing : [UInt8.ofNat m] < [UInt8.ofNat n] ↔ UInt8.ofNat m < UInt8.ofNat n := by
      simp [List.cons_lt_cons_iff]
    rw [hsing, hlast]
    omega

/-! ## Flipping the sign bit -/

theorem xor_two_pow {n x : ℕ} (hx : x < 2 ^ (n + 1)) : x ^^^ 2 ^ n = (x + 2 ^ n) % 2 ^ (n + 1) := by
  refine Nat.eq_of_testBit_eq fun j => ?_
  rw [Nat.testBit_xor, Nat.testBit_two_pow, Nat.testBit_mod_two_pow, Nat.add_comm x]
  rcases lt_trichotomy j n with hj | rfl | hj
  · rw [Nat.testBit_two_pow_add_gt hj, decide_eq_false (by omega), decide_eq_true (by omega)]
    simp
  · rw [Nat.testBit_two_pow_add_eq]
    simp
  · have hle : 2 ^ (n + 1) ≤ 2 ^ j := Nat.pow_le_pow_right (by omega) (by omega)
    rw [Nat.testBit_eq_false_of_lt (by omega), decide_eq_false (by omega),
      decide_eq_false (by omega)]
    simp

/-- A signed number with its sign bit flipped counts from the least number up. -/
theorem toNat_flip {n : ℕ} (u : BitVec (n + 1)) :
    ((u ^^^ BitVec.ofNat (n + 1) (2 ^ n)).toNat : ℤ) = u.toInt + 2 ^ n := by
  have hu := u.isLt
  have hpow : 2 ^ (n + 1) = 2 ^ n + 2 ^ n := by ring
  have hpos : 0 < 2 ^ n := Nat.two_pow_pos n
  have hcast : ((2 ^ n : ℕ) : ℤ) = 2 ^ n := by simp
  rw [BitVec.toNat_xor, BitVec.toNat_ofNat, Nat.mod_eq_of_lt (by omega), xor_two_pow hu,
    BitVec.toInt_eq_toNat_cond, ← hcast]
  by_cases hs : 2 * u.toNat < 2 ^ (n + 1)
  · rw [if_pos hs, Nat.mod_eq_of_lt (by omega)]
    omega
  · rw [if_neg hs, Nat.mod_eq_sub_mod (by omega), Nat.mod_eq_of_lt (by omega)]
    omega

end BigEndian

end XCache
