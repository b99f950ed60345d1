import Mathlib.Data.Fintype.Defs
import Mathlib.Data.Nat.Bitwise
import Mathlib.Tactic.IntervalCases
import Steel.Light.LightCache
import Steel.Utils.ChunkPos

/-! # Packed queue entries

An entry of a light queue is one word: a packed position, a level, the set of directions in which it
spreads, and three flags in its top bits.
-/

namespace Steel

open Nat

/-- The axis directions in the order of their bits. -/
inductive LightAxisDirection where
  | positiveX
  | negativeX
  | positiveZ
  | negativeZ
  | positiveY
  | negativeY
  deriving DecidableEq

namespace LightAxisDirection

def all : List LightAxisDirection :=
  [positiveX, negativeX, positiveZ, negativeZ, positiveY, negativeY]

def direction : LightAxisDirection → Direction
  | positiveX => .east
  | negativeX => .west
  | positiveZ => .south
  | negativeZ => .north
  | positiveY => .up
  | negativeY => .down

def offset : LightAxisDirection → ℤ × ℤ × ℤ
  | positiveX => (1, 0, 0)
  | negativeX => (-1, 0, 0)
  | positiveZ => (0, 0, 1)
  | negativeZ => (0, 0, -1)
  | positiveY => (0, 1, 0)
  | negativeY => (0, -1, 0)

def opposite : LightAxisDirection → LightAxisDirection
  | positiveX => negativeX
  | negativeX => positiveX
  | positiveZ => negativeZ
  | negativeZ => positiveZ
  | positiveY => negativeY
  | negativeY => positiveY

def bitIndex : LightAxisDirection → ℕ
  | positiveX => 0
  | negativeX => 1
  | positiveZ => 2
  | negativeZ => 3
  | positiveY => 4
  | negativeY => 5

variable (d : LightAxisDirection)

def bit : ℕ := 1 <<< d.bitIndex

theorem mem_all : d ∈ all := by cases d <;> decide

instance : Fintype LightAxisDirection := ⟨⟨all, by decide⟩, mem_all⟩

@[simp] theorem opposite_opposite : d.opposite.opposite = d := by
  cases d <;> rfl

@[simp] theorem direction_opposite :
    d.opposite.direction = d.direction.opposite := by cases d <;> rfl

end LightAxisDirection

def BlockCoords.relative (pos : BlockCoords) (d : LightAxisDirection) : BlockCoords :=
  ⟨pos.x + d.offset.1, pos.y + d.offset.2.1, pos.z + d.offset.2.2⟩

@[simp] theorem BlockCoords.relative_opposite (pos : BlockCoords) (d : LightAxisDirection) :
    (pos.relative d).relative d.opposite = pos := by
  cases d <;> ext <;>
    simp only [relative, LightAxisDirection.offset, LightAxisDirection.opposite] <;> omega

abbrev LightDirectionSet := ℕ

namespace LightDirectionSet

def all : LightDirectionSet := 63

def allExcept (d : LightAxisDirection) : LightDirectionSet := 63 &&& (255 ^^^ d.bit)

def allExceptOpposite (d : LightAxisDirection) : LightDirectionSet := allExcept d.opposite

def contains (set : LightDirectionSet) (d : LightAxisDirection) : Bool := set &&& d.bit != 0

/-- `LightDirectionSetIter`: the lowest bit comes first. -/
def directions (set : LightDirectionSet) : List LightAxisDirection :=
  LightAxisDirection.all.filter (contains set)

theorem allExcept_lt (d : LightAxisDirection) : allExcept d < 64 := by cases d <;> decide

theorem directions_all : directions all = LightAxisDirection.all := by decide

theorem directions_allExcept (d : LightAxisDirection) :
    directions (allExcept d) = LightAxisDirection.all.filter fun d' => d' ≠ d := by
  cases d <;> decide

end LightDirectionSet

abbrev LightQueueFlags := ℕ

namespace LightQueueFlags

def empty : LightQueueFlags := 0

def writeLevel : LightQueueFlags := 1 <<< 61

def recheckLevel : LightQueueFlags := 1 <<< 62

def hasSidedTransparentBlocks : LightQueueFlags := 1 <<< 63

def contains (flags flag : LightQueueFlags) : Bool := flags &&& flag == flag

end LightQueueFlags

abbrev PackedLightQueueEntry := ℕ

namespace PackedLightQueueEntry

open LightQueueFlags LightCacheLayout

def fromParts (blockPos : PackedLightBlockPos) (level : ℕ) (directions : LightDirectionSet)
    (flags : LightQueueFlags) : PackedLightQueueEntry :=
  blockPos ||| (level &&& 15) <<< 28 ||| directions <<< 32 ||| flags

variable (entry : PackedLightQueueEntry)

def blockPos : PackedLightBlockPos := entry &&& (2 ^ 28 - 1)

def level : ℕ := (entry >>> 28) &&& 15

def directions : LightDirectionSet := (entry >>> 32) &&& 63

def flags : LightQueueFlags := entry &&& (7 <<< 61)

def shouldWriteLevel : Bool :=
  LightQueueFlags.contains (flags entry) writeLevel

def shouldRecheckLevel : Bool :=
  LightQueueFlags.contains (flags entry) recheckLevel

def hasSidedTransparentBlocks : Bool :=
  LightQueueFlags.contains (flags entry) LightQueueFlags.hasSidedTransparentBlocks

theorem contains_two_pow (flags k : ℕ) :
    LightQueueFlags.contains flags (1 <<< k) = flags.testBit k := by
  rw [LightQueueFlags.contains, Nat.one_shiftLeft, Nat.and_two_pow]
  have hpos := Nat.two_pow_pos k
  cases flags.testBit k with
  | false =>
    simp only [Bool.toNat_false, Nat.zero_mul, beq_eq_false_iff_ne]
    exact (Nat.ne_of_gt hpos).symm
  | true => simp

def packFlags (sided recheck write : Bool) : LightQueueFlags :=
  (write.toNat + 2 * recheck.toNat + 4 * sided.toNat) <<< 61

theorem fromParts_eq {packed level directions : ℕ} (hpacked : packed < 2 ^ 28)
    (hlevel : level < 16) (hdirections : directions < 64) (bits : ℕ) :
    fromParts packed level directions (bits <<< 61) =
      packed + level * 2 ^ 28 + directions * 2 ^ 32 + bits * 2 ^ 61 := by
  have hmod : level &&& 15 = level := by
    rw [show (15 : ℕ) = 2 ^ 4 - 1 from rfl, and_two_pow_sub_one_eq_mod]
    exact mod_eq_of_lt hlevel
  have hlow : packed + level * 2 ^ 28 < 2 ^ 32 := by omega
  have hmiddle : packed + level * 2 ^ 28 + directions * 2 ^ 32 < 2 ^ 61 := by omega
  rw [fromParts, hmod, or_shiftLeft hpacked, or_shiftLeft hlow,
    or_shiftLeft hmiddle]

section Parts

variable {packed level directions : ℕ} (hpacked : packed < 2 ^ 28) (hlevel : level < 16)
  (hdirections : directions < 64) (bits : ℕ)

include hpacked hlevel hdirections

theorem blockPos_fromParts :
    blockPos (fromParts packed level directions (bits <<< 61)) = packed := by
  rw [blockPos, and_two_pow_sub_one_eq_mod, fromParts_eq hpacked hlevel hdirections]
  show Eq (α := ℕ) _ _
  omega

theorem level_fromParts :
    PackedLightQueueEntry.level (fromParts packed level directions (bits <<< 61)) = level := by
  rw [PackedLightQueueEntry.level, show (15 : ℕ) = 2 ^ 4 - 1 from rfl,
    and_two_pow_sub_one_eq_mod, shiftRight_eq_div_pow,
    fromParts_eq hpacked hlevel hdirections]
  omega

theorem directions_fromParts :
    PackedLightQueueEntry.directions (fromParts packed level directions (bits <<< 61)) =
      directions := by
  rw [PackedLightQueueEntry.directions, show (63 : ℕ) = 2 ^ 6 - 1 from rfl,
    and_two_pow_sub_one_eq_mod, shiftRight_eq_div_pow,
    fromParts_eq hpacked hlevel hdirections]
  show Eq (α := ℕ) _ _
  omega

theorem testBit_fromParts (i : ℕ) (hi : i < 3) :
    (flags (fromParts packed level directions (bits <<< 61))).testBit (61 + i) =
    bits.testBit i := by
  have hdiv : fromParts packed level directions (bits <<< 61) / 2 ^ 61 = bits := by
    rw [fromParts_eq hpacked hlevel hdirections]
    omega
  have hmask : (7 <<< 61 : ℕ).testBit (61 + i) = true := by
    interval_cases i <;> decide
  rw [flags, testBit_and, hmask, Bool.and_true, ← testBit_shiftRight,
    shiftRight_eq_div_pow, hdiv]

end Parts

end PackedLightQueueEntry

end Steel
