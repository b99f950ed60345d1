import Mathlib.Data.Int.Basic
import Mathlib.Tactic.Common

/-! # Chunk positions and directions

A chunk position is a pair of 32-bit coordinates. Its packed form stores the
two coordinates in the halves of one 64-bit word and loses nothing.
-/

namespace Steel

open BitVec

instance neZero_sixteen : @NeZero ℕ Zero.ofOfNat0 16 := ⟨by decide⟩

structure ChunkPos where
  x : Int32
  z : Int32
  deriving DecidableEq

/-- `PackedChunkPos`: the raw word of a packed chunk position. -/
abbrev PackedChunkPos := BitVec 64

namespace ChunkPos

variable (pos : ChunkPos)

/-- `PackedChunkPos::from`. -/
def pack : PackedChunkPos :=
  (pos.x.toBitVec.signExtend 64 &&& 0xFFFFFFFF#64) |||
    ((pos.z.toBitVec.signExtend 64 &&& 0xFFFFFFFF#64) <<< 32)

/-- `PackedChunkPos::to_chunk_pos`. The shift of the signed word is arithmetic. -/
def unpack (raw : PackedChunkPos) : ChunkPos :=
  ⟨⟨⟨(raw &&& 0xFFFFFFFF#64).setWidth 32⟩⟩, ⟨⟨(raw.sshiftRight 32).setWidth 32⟩⟩⟩

theorem getLsbD_mask (i : ℕ) : (0xFFFFFFFF#64).getLsbD i = decide (i < 32) := by
  have he : (0xFFFFFFFF#64) = (BitVec.allOnes 32).setWidth 64 := by decide
  rw [he, getLsbD_setWidth, getLsbD_allOnes]
  by_cases h : i < 32
  · simp [h, show i < 64 by omega]
  · simp [h]

@[simp] theorem unpack_pack : unpack (pack pos) = pos := by
  obtain ⟨⟨⟨x⟩⟩, ⟨⟨z⟩⟩⟩ := pos
  simp only [unpack, pack, Int32.toBitVec]
  congr 3
  · apply eq_of_getLsbD_eq
    intro i hi
    have h : i < 64 := by omega
    simp only [getLsbD_setWidth, getLsbD_and, getLsbD_or, getLsbD_mask,
      getLsbD_shiftLeft, getLsbD_signExtend]
    simp [hi, h]
  · apply eq_of_getLsbD_eq
    intro i hi
    have h₁ : 32 + i < 64 := by omega
    have h₂ : i < 64 := by omega
    have h₃ : ¬ 32 + i < 32 := by omega
    simp only [getLsbD_setWidth, getLsbD_sshiftRight, getLsbD_and,
      getLsbD_or, getLsbD_mask, getLsbD_shiftLeft, getLsbD_signExtend]
    simp [hi, h₁, h₂, h₃]

def asRaw : ℤ := pos.pack.toInt

def fromRaw (raw : ℤ) : ChunkPos := unpack (BitVec.ofInt 64 raw)

@[simp] theorem fromRaw_asRaw : fromRaw (asRaw pos) = pos := by
  rw [fromRaw, asRaw, ofInt_toInt, unpack_pack]

theorem asRaw_injective : Function.Injective asRaw :=
  Function.LeftInverse.injective fromRaw_asRaw

end ChunkPos

structure BlockPos where
  x : Int32
  y : Int32
  z : Int32
  deriving DecidableEq

inductive Direction where
  | down
  | up
  | north
  | south
  | west
  | east
  deriving DecidableEq

namespace Direction

def offset : Direction → Int32 × Int32 × Int32
  | down => (0, -1, 0)
  | up => (0, 1, 0)
  | north => (0, 0, -1)
  | south => (0, 0, 1)
  | west => (-1, 0, 0)
  | east => (1, 0, 0)

def opposite : Direction → Direction
  | down => up
  | up => down
  | north => south
  | south => north
  | west => east
  | east => west

/-- `Direction::ALL` -/
def all : List Direction := [down, up, north, south, west, east]

/-- `Direction::HORIZONTAL` -/
def horizontal : List Direction := [north, east, south, west]

@[simp] theorem opposite_opposite (d : Direction) : d.opposite.opposite = d := by cases d <;> rfl

end Direction

def BlockPos.relative (pos : BlockPos) (direction : Direction) : BlockPos :=
  let (x, y, z) := direction.offset
  ⟨pos.x + x, pos.y + y, pos.z + z⟩

theorem BlockPos.relative_opposite (pos : BlockPos) (direction : Direction) :
    (pos.relative direction).relative direction.opposite = pos := by
  obtain ⟨x, y, z⟩ := pos
  cases direction <;>
    simp only [BlockPos.relative, Direction.opposite, Direction.offset, BlockPos.mk.injEq] <;> grind

end Steel
