import Mathlib.Order.Lattice.Nat
import Steel.Utils.ChunkPos

/-! # Section positions

A section is a cube of a chunk. Its packed form keeps 22 bits of the horizontal coordinates, 20 of
the vertical one, so that the sections of a chunk follow one another, those below zero last.
-/

namespace Steel

open BitVec

structure SectionPos where
  x : Int32
  y : Int32
  z : Int32
  deriving DecidableEq

/-- `PackedSectionPos`: the value of the raw `i64`, which it is ordered by. -/
abbrev PackedSectionPos := ℤ

namespace SectionPos

variable (pos : SectionPos)

def chunk : ChunkPos := ⟨pos.x, pos.z⟩

/-- `PackedSectionPos::from`, bit by bit. -/
def packedBits : BitVec 64 :=
  (((pos.x.toBitVec.signExtend 64 &&& 0x3FFFFF#64) <<< 42) |||
    ((pos.z.toBitVec.signExtend 64 &&& 0x3FFFFF#64) <<< 20)) |||
    (pos.y.toBitVec.signExtend 64 &&& 0xFFFFF#64)

def pack : ℤ := pos.packedBits.toInt

theorem packedBits_eq :
    pos.packedBits = (pos.x.toBitVec.setWidth 22 ++ pos.z.toBitVec.setWidth 22) ++
      pos.y.toBitVec.setWidth 20 := by
  have hxz : (0x3FFFFF#64) = (BitVec.allOnes 22).setWidth 64 := by decide
  have hy : (0xFFFFF#64) = (BitVec.allOnes 20).setWidth 64 := by decide
  apply eq_of_getLsbD_eq
  intro i hi
  simp only [packedBits, hxz, hy, getLsbD_or, getLsbD_shiftLeft, getLsbD_and,
    getLsbD_setWidth, getLsbD_allOnes, getLsbD_append,
    getLsbD_signExtend]
  by_cases h₁ : i < 20
  · have h₂ : i < 42 := by omega
    have h₃ : i < 32 := by omega
    simp [h₁, h₂, h₃, hi]
  · by_cases h₂ : i < 42
    · have h₃ : i - 20 < 22 := by omega
      have h₄ : i - 20 < 64 := by omega
      have h₅ : i - 20 < 32 := by omega
      simp [h₁, h₂, h₃, h₄, h₅, hi]
    · have h₃ : ¬ i - 20 < 22 := by omega
      have h₄ : i - 42 < 22 := by omega
      have h₅ : i - 42 < 32 := by omega
      have h₆ : i - 42 < 64 := by omega
      have h₇ : i - 20 - 22 = i - 42 := by omega
      simp [h₁, h₂, h₃, h₄, h₅, h₆, h₇, hi]

theorem toNat_append {m n : ℕ} (x : BitVec m) (y : BitVec n) :
    (x ++ y).toNat = x.toNat * 2 ^ n + y.toNat := by
  rw [BitVec.toNat_append, ← Nat.shiftLeft_add_eq_or_of_lt y.isLt, Nat.shiftLeft_eq]

theorem pack_eq : pos.pack = 2 ^ 42 * (pos.x.toBitVec.setWidth 22).toInt +
      2 ^ 20 * (pos.z.toBitVec.setWidth 22).toNat + (pos.y.toBitVec.setWidth 20).toNat := by
  have hx := (pos.x.toBitVec.setWidth 22).isLt
  have hz := (pos.z.toBitVec.setWidth 22).isLt
  have hy := (pos.y.toBitVec.setWidth 20).isLt
  rw [pack, packedBits_eq, toInt_eq_toNat_cond, toInt_eq_toNat_cond, toNat_append, toNat_append]
  generalize (pos.x.toBitVec.setWidth 22).toNat = a at *
  generalize (pos.z.toBitVec.setWidth 22).toNat = b at *
  generalize (pos.y.toBitVec.setWidth 20).toNat = c at *
  have hsum : (((a * 2 ^ 22 + b) * 2 ^ 20 + c : ℕ) : ℤ) = 2 ^ 42 * a + 2 ^ 20 * b + c := by
    omega
  have hword : ((2 ^ (22 + 22 + 20) : ℕ) : ℤ) = 2 ^ 64 := by decide
  rw [hword]
  split <;> split <;> omega

end SectionPos

/-- The horizontal coordinates fit into their packed form. -/
def ChunkPos.InPackedRange (pos : ChunkPos) : Prop :=
  (-2 ^ 21 ≤ pos.x.toInt ∧ pos.x.toInt < 2 ^ 21) ∧ -2 ^ 21 ≤ pos.z.toInt ∧ pos.z.toInt < 2 ^ 21

instance (pos : ChunkPos) : Decidable pos.InPackedRange :=
  inferInstanceAs (Decidable ((_ ∧ _) ∧ _ ∧ _))

namespace SectionPos

theorem toInt_setWidth {x : Int32} (h : -2 ^ 21 ≤ x.toInt ∧ x.toInt < 2 ^ 21) :
    (x.toBitVec.setWidth 22).toInt = x.toInt := by
  have hx := x.toBitVec.isLt
  have hint : x.toInt = if 2 * x.toBitVec.toNat < 2 ^ 32 then (x.toBitVec.toNat : ℤ)
      else (x.toBitVec.toNat : ℤ) - (2 ^ 32 : ℕ) := toInt_eq_toNat_cond _
  rw [BitVec.toInt_setWidth, Int.bmod]
  split at hint
  · split <;> omega
  · split <;> omega

theorem toNat_setWidth (x : Int32) : ((x.toBitVec.setWidth 22).toNat : ℤ) = x.toInt % 2 ^ 22 := by
  have hx := x.toBitVec.isLt
  have hint : x.toInt = if 2 * x.toBitVec.toNat < 2 ^ 32 then (x.toBitVec.toNat : ℤ)
      else (x.toBitVec.toNat : ℤ) - (2 ^ 32 : ℕ) := toInt_eq_toNat_cond _
  rw [BitVec.toNat_setWidth]
  split at hint
  · omega
  · omega

/-- The sections of a chunk are those between its sections at heights zero and minus one. -/
theorem pack_between_iff {pos : SectionPos} {chunk : ChunkPos} (hpos : pos.chunk.InPackedRange)
    (hchunk : chunk.InPackedRange) :
    (pack ⟨chunk.x, 0, chunk.z⟩ ≤ pos.pack ∧ pos.pack ≤ pack ⟨chunk.x, -1, chunk.z⟩) ↔
      pos.chunk = chunk := by
  have hy := (pos.y.toBitVec.setWidth 20).isLt
  have hzero : (((0 : Int32).toBitVec.setWidth 20).toNat : ℤ) = 0 := by decide
  have hlast : (((-1 : Int32).toBitVec.setWidth 20).toNat : ℤ) = 2 ^ 20 - 1 := by decide
  obtain ⟨hx, hz⟩ := hpos
  obtain ⟨hcx, hcz⟩ := hchunk
  have hxi := toInt_setWidth hx
  have hzi := toNat_setWidth pos.z
  have hcxi := toInt_setWidth hcx
  have hczi := toNat_setWidth chunk.z
  dsimp only [SectionPos.chunk] at hx hz hxi hzi
  rw [pack_eq, pack_eq, pack_eq]
  dsimp only
  rw [hxi, hzi, hcxi, hczi, hzero, hlast]
  constructor
  · intro hbetween
    have hxeq : pos.x.toInt = chunk.x.toInt := by omega
    have hzeq : pos.z.toInt = chunk.z.toInt := by omega
    exact congrArg₂ ChunkPos.mk (Int32.toInt_inj.1 hxeq) (Int32.toInt_inj.1 hzeq)
  · rintro rfl
    dsimp only [SectionPos.chunk]
    omega

end SectionPos

end Steel
