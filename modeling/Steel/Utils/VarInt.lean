import Mathlib.Data.Nat.Bitwise

/-! # Variable-length integers

A 32-bit integer is written in groups of seven bits, lowest first; every byte
but the last has its top bit set. Reading stops after five bytes.
-/

namespace Steel

open BitVec List

namespace VarInt

inductive ReadError where
  | unexpectedEof
  | tooLong
  deriving DecidableEq

variable (val : UInt32)

theorem toNat_shiftRight_seven : (val >>> 7).toNat = val.toNat / 128 := by
  rw [UInt32.toNat_shiftRight, Nat.shiftRight_eq_div_pow]
  rfl

/-- The loop of `VarInt::write` on the value as `u32`. -/
def writeLoop (val : UInt32) : List UInt8 :=
  let b := val.toUInt8 &&& 0x7F
  if val >>> 7 = 0 then [b] else (b ||| 0x80) :: writeLoop (val >>> 7)
termination_by val.toNat
decreasing_by
  rename_i h
  have hshift := toNat_shiftRight_seven val
  have hne : (val >>> 7).toNat ≠ 0 := fun h0 => h (UInt32.toNat_inj.mp h0)
  omega

def write (value : Int32) : List UInt8 := writeLoop value.toUInt32

/-- The loop of `VarInt::read`, with `n` of the five bytes left. -/
def readLoop : ℕ → BitVec 32 → List UInt8 → Except ReadError (Int32 × List UInt8)
  | 0, _, _ => .error .tooLong
  | _ + 1, _, [] => .error .unexpectedEof
  | n + 1, val, byte :: bytes =>
    let i := 4 - n
    let val := val ||| ((byte.toBitVec.setWidth 32 &&& 0x7F#32) <<< (i * 7))
    if byte &&& 0x80 = 0 then .ok (Int32.ofBitVec val, bytes) else readLoop n val bytes

def read (bytes : List UInt8) : Except ReadError (Int32 × List UInt8) := readLoop 5 0 bytes

theorem and_seven_ones (n : ℕ) : n &&& 127 = n % 128 := Nat.and_two_pow_sub_one_eq_mod n 7

theorem getLsbD_low (v : BitVec 32) (k : ℕ) :
    (v &&& 0x7F#32).getLsbD k = (decide (k < 7) && v.getLsbD k) := by
  have hnat : (v &&& 0x7F#32).toNat = v.toNat % 2 ^ 7 := by
    rw [toNat_and]
    exact and_seven_ones _
  rw [BitVec.getLsbD, hnat, Nat.testBit_mod_two_pow, BitVec.getLsbD]

theorem groups (v : BitVec 32) (i : ℕ) :
    (v &&& 0x7F#32) <<< (i * 7) ||| (v >>> 7) <<< ((i + 1) * 7) = v <<< (i * 7) := by
  have hsplit : (v &&& 0x7F#32) ||| (v >>> 7) <<< 7 = v := by
    apply eq_of_getLsbD_eq
    intro k hk
    rw [getLsbD_or, getLsbD_low, getLsbD_shiftLeft, getLsbD_ushiftRight]
    by_cases h7 : k < 7
    · simp [h7]
    · simp [h7, hk, show 7 + (k - 7) = k by omega]
  calc (v &&& 0x7F#32) <<< (i * 7) ||| (v >>> 7) <<< ((i + 1) * 7)
    _ = (v &&& 0x7F#32) <<< (i * 7) ||| (v >>> 7) <<< 7 <<< (i * 7) := by
      rw [← shiftLeft_add, show 7 + i * 7 = (i + 1) * 7 by omega]
    _ = ((v &&& 0x7F#32) ||| (v >>> 7) <<< 7) <<< (i * 7) := by rw [shiftLeft_or_distrib]
    _ = v <<< (i * 7) := by rw [hsplit]

theorem low_of_byte {byte : UInt8} {val : UInt32} (h : byte.toNat % 128 = val.toNat % 128) :
    byte.toBitVec.setWidth 32 &&& 0x7F#32 = val.toBitVec &&& 0x7F#32 := by
  apply eq_of_toNat_eq
  have hb := byte.toNat_lt
  rw [toNat_and, toNat_and, toNat_setWidth]
  change byte.toNat % 2 ^ 32 &&& 127 = val.toNat &&& 127
  rw [and_seven_ones, and_seven_ones]
  omega

theorem toNat_last : (val.toUInt8 &&& 0x7F).toNat = val.toNat % 128 := by
  rw [UInt8.toNat_and, UInt32.toNat_toUInt8]
  change val.toNat % 256 &&& 127 = _
  rw [and_seven_ones]
  omega

theorem toNat_continued : ((val.toUInt8 &&& 0x7F) ||| 0x80).toNat = val.toNat % 128 + 128 := by
  rw [UInt8.toNat_or, toNat_last]
  change val.toNat % 128 ||| 2 ^ 7 * 1 = _
  have hlt : val.toNat % 128 < 2 ^ 7 := Nat.mod_lt _ (by decide)
  rw [Nat.or_comm, ← Nat.two_pow_add_eq_or_of_lt hlt]
  omega

theorem and_top_eq_zero_iff (byte : UInt8) : byte &&& 0x80 = 0 ↔ byte.toNat < 128 := by
  rw [← UInt8.toNat_inj, UInt8.toNat_and]
  have hb := byte.toNat_lt
  have hand : byte.toNat &&& 2 ^ 7 = (byte.toNat.testBit 7).toNat * 2 ^ 7 := Nat.and_two_pow _ _
  change byte.toNat &&& 2 ^ 7 = 0 ↔ _
  rw [hand, Nat.testBit_eq_decide_div_mod_eq]
  simp only [Nat.mul_eq_zero, Bool.toNat_eq_zero, decide_eq_false_iff_not]
  omega

theorem readLoop_last (n : ℕ) (acc : BitVec 32) {val : UInt32} (hval : val >>> 7 = 0)
    (rest : List UInt8) :
    readLoop (n + 1) acc ((val.toUInt8 &&& 0x7F) :: rest) =
      .ok (Int32.ofBitVec (acc ||| val.toBitVec <<< ((4 - n) * 7)), rest) := by
  have htop : (val.toUInt8 &&& 0x7F) &&& 0x80 = 0 := by
    rw [and_top_eq_zero_iff, toNat_last]
    exact Nat.mod_lt _ (by decide)
  have hlow : (val.toUInt8 &&& 0x7F).toBitVec.setWidth 32 &&& 0x7F#32 = val.toBitVec &&& 0x7F#32 :=
    low_of_byte (by rw [toNat_last]; omega)
  have hzero : val.toBitVec >>> 7 = 0#32 := congrArg UInt32.toBitVec hval
  have hgroups := groups val.toBitVec (4 - n)
  rw [hzero, zero_shiftLeft, or_zero] at hgroups
  simp only [readLoop, htop, if_true, hlow, hgroups]

theorem readLoop_more (n : ℕ) (acc : BitVec 32) (val : UInt32) (bytes : List UInt8) :
    readLoop (n + 1) acc (((val.toUInt8 &&& 0x7F) ||| 0x80) :: bytes) =
      readLoop n (acc ||| (val.toBitVec &&& 0x7F#32) <<< ((4 - n) * 7)) bytes := by
  have htop : ¬ ((val.toUInt8 &&& 0x7F) ||| 0x80) &&& 0x80 = 0 := by
    rw [and_top_eq_zero_iff, toNat_continued]
    omega
  have hlow : ((val.toUInt8 &&& 0x7F) ||| 0x80).toBitVec.setWidth 32 &&& 0x7F#32 =
      val.toBitVec &&& 0x7F#32 := low_of_byte (by rw [toNat_continued]; omega)
  simp only [readLoop, htop, if_false, hlow]

/-- Reading gives back the written value, if enough bytes are allowed for its groups. -/
theorem readLoop_writeLoop (n : ℕ) (hn : n < 5) (acc : BitVec 32) (val : UInt32)
    (hval : val.toNat < 128 ^ (n + 1)) (rest : List UInt8) :
    readLoop (n + 1) acc (writeLoop val ++ rest) =
      .ok (Int32.ofBitVec (acc ||| val.toBitVec <<< ((4 - n) * 7)), rest) := by
  have hshift := toNat_shiftRight_seven val
  rw [writeLoop]
  by_cases h0 : val >>> 7 = 0
  · rw [if_pos h0]
    exact readLoop_last n acc h0 rest
  · rw [if_neg h0]
    have hne : (val >>> 7).toNat ≠ 0 := fun h => h0 (UInt32.toNat_inj.mp h)
    match n with
    | 0 => omega
    | n + 1 =>
      have hrec := readLoop_writeLoop n (by omega)
        (acc ||| (val.toBitVec &&& 0x7F#32) <<< ((4 - (n + 1)) * 7)) (val >>> 7)
        (by rw [hshift]; exact Nat.div_lt_of_lt_mul (by rw [Nat.pow_succ] at hval; omega)) rest
      have hgroups := groups val.toBitVec (4 - (n + 1))
      rw [show 4 - (n + 1) + 1 = 4 - n by omega] at hgroups
      rw [List.cons_append, readLoop_more, hrec, BitVec.or_assoc]
      exact congrArg (fun v => Except.ok (Int32.ofBitVec (acc ||| v), rest)) hgroups
termination_by n

variable (value : Int32)

theorem read_write (rest : List UInt8) : read (write value ++ rest) = .ok (value, rest) := by
  have hlt : value.toUInt32.toNat < 128 ^ 5 :=
    Nat.lt_trans value.toUInt32.toNat_lt (by decide)
  rw [read, write, readLoop_writeLoop 4 (by decide) 0 _ hlt]
  simp

def MAX_SIZE : ℕ := 5

/-- `written_size`. For a nonzero value `31 - leading_zeros` is the binary logarithm. -/
def writtenSize (value : Int32) : ℕ :=
  if value = 0 then 1 else value.toUInt32.toNat.log2 / 7 + 1

theorem length_writeLoop_pos : 0 < (writeLoop val).length := by
  rw [writeLoop]
  by_cases h : val >>> 7 = 0 <;> simp [h]

theorem length_writeLoop_le_iff (k : ℕ) :
    ∀ val : UInt32, (writeLoop val).length ≤ k + 1 ↔ val.toNat < 128 ^ (k + 1) := by
  induction k with
  | zero =>
    intro val
    have hshift := toNat_shiftRight_seven val
    rw [writeLoop]
    by_cases h : val >>> 7 = 0
    · have h0 : (val >>> 7).toNat = 0 := by rw [h]; rfl
      rw [if_pos h]
      simp only [length_singleton]
      omega
    · have hne : (val >>> 7).toNat ≠ 0 := fun h0 => h (UInt32.toNat_inj.mp h0)
      have hpos := length_writeLoop_pos (val >>> 7)
      rw [if_neg h, length_cons]
      omega
  | succ k ih =>
    intro val
    have hshift := toNat_shiftRight_seven val
    rw [writeLoop]
    by_cases h : val >>> 7 = 0
    · have h0 : (val >>> 7).toNat = 0 := by rw [h]; rfl
      have hpow : 128 ≤ 128 ^ (k + 1 + 1) := Nat.le_self_pow (by omega) 128
      rw [if_pos h]
      simp only [length_singleton]
      omega
    · rw [if_neg h, length_cons, Nat.add_le_add_iff_right, ih, hshift,
        Nat.div_lt_iff_lt_mul (by decide), ← Nat.pow_succ]

theorem length_write_le_iff (k : ℕ) (value : Int32) :
    (write value).length ≤ k + 1 ↔ value.toUInt32.toNat < 128 ^ (k + 1) :=
  length_writeLoop_le_iff k value.toUInt32

theorem length_write_le : (write value).length ≤ MAX_SIZE :=
  (length_write_le_iff 4 value).mpr (Nat.lt_trans value.toUInt32.toNat_lt (by decide))

theorem writtenSize_le_iff (k : ℕ) (value : Int32) :
    writtenSize value ≤ k + 1 ↔ value.toUInt32.toNat < 128 ^ (k + 1) := by
  have hpow : 128 ^ (k + 1) = 2 ^ (7 * (k + 1)) := by rw [Nat.pow_mul]
  unfold writtenSize
  by_cases h : value = 0
  · rw [if_pos h, h]
    exact iff_of_true (Nat.le_add_left 1 k) (Nat.pow_pos (by decide))
  · have hne : value.toUInt32.toNat ≠ 0 := by
      intro h0
      exact h (congrArg Int32.ofUInt32 (UInt32.toNat_inj.mp h0 : value.toUInt32 = 0))
    rw [if_neg h, hpow, ← Nat.log2_lt hne]
    omega

theorem writtenSize_pos : 0 < writtenSize value := by
  unfold writtenSize
  by_cases h : value = 0 <;> simp [h]

theorem writtenSize_eq : writtenSize value = (write value).length := by
  have hiff : ∀ k, writtenSize value ≤ k + 1 ↔ (write value).length ≤ k + 1 := by
    intro k
    rw [writtenSize_le_iff, length_write_le_iff]
  have hsize := writtenSize_pos value
  have hlength : 0 < (write value).length := length_writeLoop_pos _
  apply Nat.le_antisymm
  · have := (hiff ((write value).length - 1)).mpr (by omega)
    omega
  · have := (hiff (writtenSize value - 1)).mp (by omega)
    omega

end VarInt

end Steel
