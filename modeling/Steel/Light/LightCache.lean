import Mathlib.Algebra.Group.Nat.Defs
import Mathlib.Tactic.Common

/-! # The cache window of the light engine

The engine works on five by five chunks around a centre. A block has a section slot and an index in
its section, and a queue entry packs its position into 28 bits relative to the window.
-/

namespace Steel

open Nat

/-- A block position in the light engine. -/
@[ext] structure BlockCoords where
  x : ℤ
  y : ℤ
  z : ℤ
  deriving DecidableEq

/-- The sections of a world with one more section below and above. No world is so high that the
sixteen bits of a packed height would not be enough. -/
structure LightSectionRange where
  minSectionY : ℤ
  sectionCount : ℕ
  padded : 2 < sectionCount
  sectionCount_le : sectionCount + 2 ≤ 4096

/-- The bits of a packed position: six for `x`, six for `z` and sixteen for `y`. -/
abbrev PackedLightBlockPos := ℕ

namespace PackedLightBlockPos

variable (packed : PackedLightBlockPos)

def encodedX : ℕ := packed &&& 63

def encodedZ : ℕ := (packed >>> 6) &&& 63

def encodedY : ℕ := (packed >>> 12) &&& 65535

end PackedLightBlockPos

open PackedLightBlockPos (encodedX encodedZ encodedY)

structure CachedLightBlock where
  blockPos : BlockCoords
  sectionSlot : ℕ
  localIndex : ℕ

structure LightCacheLayout where
  centerChunk : ℤ × ℤ
  range : LightSectionRange

/-- `SectionPos::block_to_section_coord`: a shift by four bits. -/
def blockToSectionCoord (coord : ℤ) : ℤ := coord / 16

namespace LightCacheLayout

variable (layout : LightCacheLayout)

def cachedMinSectionY : ℤ := layout.range.minSectionY - 1

def cachedSectionCount : ℕ := layout.range.sectionCount + 2

def cachedMaxSectionYExclusive : ℤ := layout.cachedMinSectionY + layout.cachedSectionCount

def chunkIndexOffset : ℤ := (2 - layout.centerChunk.1) + 5 * (2 - layout.centerChunk.2)

def chunkSectionIndexOffset : ℤ := layout.chunkIndexOffset + 25 * -layout.cachedMinSectionY

def centerBlockX : ℤ := layout.centerChunk.1 * 16 + 7

def centerBlockZ : ℤ := layout.centerChunk.2 * 16 + 7

def encodeOffsetX : ℤ := 31 - layout.centerBlockX

def encodeOffsetY : ℤ := -(layout.cachedMinSectionY * 16)

def encodeOffsetZ : ℤ := 31 - layout.centerBlockZ

def encodedMinBlockX : ℤ := layout.centerBlockX - 31

def encodedMinBlockZ : ℤ := layout.centerBlockZ - 31

def chunkDistance (chunkX chunkZ : ℤ) : ℕ :=
  max (chunkX - layout.centerChunk.1).natAbs (chunkZ - layout.centerChunk.2).natAbs

def containsChunkCoords (chunkX chunkZ : ℤ) : Bool := layout.chunkDistance chunkX chunkZ ≤ 2

def containsInnerChunkCoords (chunkX chunkZ : ℤ) : Bool := layout.chunkDistance chunkX chunkZ ≤ 1

def containsSectionY (sectionY : ℤ) : Bool :=
  layout.cachedMinSectionY ≤ sectionY ∧ sectionY < layout.cachedMaxSectionYExclusive

def sectionSlotByCoords (sectionX sectionY sectionZ : ℤ) : Option ℕ :=
  if !layout.containsChunkCoords sectionX sectionZ || !layout.containsSectionY sectionY then none
  else
    let slot := sectionX + 5 * sectionZ + 25 * sectionY + layout.chunkSectionIndexOffset
    if slot < 0 then none else some slot.toNat

def localBlockIndex (pos : BlockCoords) : ℕ :=
  (pos.x % 16).toNat ||| (pos.z % 16).toNat <<< 4 ||| (pos.y % 16).toNat <<< 8

def cachedBlock (pos : BlockCoords) : Option CachedLightBlock :=
  (layout.sectionSlotByCoords (blockToSectionCoord pos.x) (blockToSectionCoord pos.y)
    (blockToSectionCoord pos.z)).map fun slot => ⟨pos, slot, localBlockIndex pos⟩

def containsEncodedBlockPos (pos : BlockCoords) : Bool :=
  layout.encodedMinBlockX ≤ pos.x ∧ pos.x ≤ layout.encodedMinBlockX + 63 ∧
    layout.encodedMinBlockZ ≤ pos.z ∧ pos.z ≤ layout.encodedMinBlockZ + 63 ∧
    layout.containsSectionY (blockToSectionCoord pos.y)

def encodeBlockPos (pos : BlockCoords) : Option PackedLightBlockPos :=
  if !layout.containsEncodedBlockPos pos then none
  else
    let encodedX := ((pos.x + layout.encodeOffsetX) % 64).toNat
    let encodedY := ((pos.y + layout.encodeOffsetY) % 65536).toNat
    let encodedZ := ((pos.z + layout.encodeOffsetZ) % 64).toNat
    some (encodedX ||| encodedZ <<< 6 ||| encodedY <<< 12)

def decodeBlockPos (packed : PackedLightBlockPos) : BlockCoords :=
  ⟨packed.encodedX - layout.encodeOffsetX, packed.encodedY - layout.encodeOffsetY,
    packed.encodedZ - layout.encodeOffsetZ⟩

def cachedBlockFromPacked (packed : PackedLightBlockPos) : Option CachedLightBlock :=
  layout.cachedBlock (layout.decodeBlockPos packed)

variable {layout}

theorem or_shiftLeft {a k : ℕ} (h : a < 2 ^ k) (b : ℕ) : a ||| b <<< k = a + b * 2 ^ k := by
  rw [Nat.or_comm, ← Nat.shiftLeft_add_eq_or_of_lt h, Nat.shiftLeft_eq, Nat.add_comm]

theorem and_eq_mod (a k : ℕ) : a &&& (2 ^ k - 1) = a % 2 ^ k := and_two_pow_sub_one_eq_mod a k

theorem or_fields {a b : ℕ} {k l : ℕ} (ha : a < 2 ^ k) (hb : b < 2 ^ l) (c : ℕ) :
    a ||| b <<< k ||| c <<< (k + l) = a + b * 2 ^ k + c * (2 ^ k * 2 ^ l) := by
  have hab : a + b * 2 ^ k < 2 ^ (k + l) := by
    calc a + b * 2 ^ k < 2 ^ k + b * 2 ^ k := Nat.add_lt_add_right ha _
      _ = (b + 1) * 2 ^ k := by rw [Nat.succ_mul, Nat.add_comm]
      _ ≤ 2 ^ l * 2 ^ k := mul_le_mul_right _ hb
      _ = 2 ^ (k + l) := by rw [pow_add, mul_comm]
  rw [or_shiftLeft ha, or_shiftLeft hab, pow_add]

theorem localBlockIndex_eq (pos : BlockCoords) : localBlockIndex pos =
    (pos.x % 16).toNat + (pos.z % 16).toNat * 16 + (pos.y % 16).toNat * 256 :=
  or_fields (k := 4) (l := 4) (by omega) (by omega) _

variable {pos : BlockCoords} {packed : ℕ} {sectionY : ℤ} {block : CachedLightBlock}

theorem encodeBlockPos_eq_some :
    layout.encodeBlockPos pos = some packed ↔ layout.containsEncodedBlockPos pos = true ∧
      packed = ((pos.x + layout.encodeOffsetX) % 64).toNat +
        ((pos.z + layout.encodeOffsetZ) % 64).toNat * 64 +
        ((pos.y + layout.encodeOffsetY) % 65536).toNat * 4096 := by
  have hor := or_fields (k := 6) (l := 6) (a := ((pos.x + layout.encodeOffsetX) % 64).toNat)
    (b := ((pos.z + layout.encodeOffsetZ) % 64).toNat) (by omega) (by omega)
    ((pos.y + layout.encodeOffsetY) % 65536).toNat
  unfold encodeBlockPos
  cases layout.containsEncodedBlockPos pos with
  | false => simp
  | true =>
    simp only [Bool.not_true, Bool.false_eq_true, if_false, Option.some.injEq, true_and]
    rw [show (6 + 6 : ℕ) = 12 from rfl] at hor
    rw [hor]
    exact eq_comm

theorem encodeBlockPos_eq_none :
    layout.encodeBlockPos pos = none ↔ layout.containsEncodedBlockPos pos = false := by
  unfold encodeBlockPos
  cases layout.containsEncodedBlockPos pos <;> simp

theorem packed_lt (h : layout.encodeBlockPos pos = some packed) : packed < 2 ^ 28 := by
  obtain ⟨_, rfl⟩ := encodeBlockPos_eq_some.1 h
  omega

theorem containsSectionY_iff : layout.containsSectionY sectionY = true ↔
    layout.cachedMinSectionY ≤ sectionY ∧
      sectionY < layout.cachedMinSectionY + layout.cachedSectionCount := by
  rw [containsSectionY, decide_eq_true_iff]
  rfl

theorem containsEncodedBlockPos_iff : layout.containsEncodedBlockPos pos = true ↔
      (layout.encodedMinBlockX ≤ pos.x ∧ pos.x ≤ layout.encodedMinBlockX + 63) ∧
      (layout.encodedMinBlockZ ≤ pos.z ∧ pos.z ≤ layout.encodedMinBlockZ + 63) ∧
      layout.cachedMinSectionY ≤ blockToSectionCoord pos.y ∧
      blockToSectionCoord pos.y < layout.cachedMinSectionY + layout.cachedSectionCount := by
  rw [containsEncodedBlockPos, decide_eq_true_iff, containsSectionY_iff, and_assoc, and_assoc]

theorem encoded_fields {x z y : ℕ} (hx : x < 64) (hz : z < 64) (hy : y < 65536) :
    encodedX (x + z * 64 + y * 4096) = x ∧
    encodedZ (x + z * 64 + y * 4096) = z ∧
    encodedY (x + z * 64 + y * 4096) = y := by
  refine ⟨?_, ?_, ?_⟩
  · rw [encodedX, show (63 : ℕ) = 2 ^ 6 - 1 from rfl, and_eq_mod]
    omega
  · rw [encodedZ, shiftRight_eq_div_pow,
      show (63 : ℕ) = 2 ^ 6 - 1 from rfl, and_eq_mod]
    omega
  · rw [encodedY, shiftRight_eq_div_pow,
      show (65535 : ℕ) = 2 ^ 16 - 1 from rfl, and_eq_mod]
    omega

theorem coord_of_offset {coord offset : ℤ} {size : ℕ} (hle : 0 ≤ coord + offset)
    (hlt : coord + offset < size) :
    (((coord + offset) % size).toNat : ℤ) - offset = coord ∧
      ((coord + offset) % size).toNat < size := by
  rw [Int.emod_eq_of_lt hle hlt]
  omega

theorem decodeBlockPos_encode (h : layout.encodeBlockPos pos = some packed) :
    layout.decodeBlockPos packed = pos := by
  obtain ⟨hcontains, rfl⟩ := encodeBlockPos_eq_some.1 h
  obtain ⟨hx, hz, hy⟩ := containsEncodedBlockPos_iff.1 hcontains
  have hcount := layout.range.sectionCount_le
  unfold encodedMinBlockX at hx
  unfold encodedMinBlockZ at hz
  unfold blockToSectionCoord cachedSectionCount at hy
  obtain ⟨hX, hX'⟩ := @coord_of_offset pos.x layout.encodeOffsetX 64
    (by unfold encodeOffsetX; omega) (by unfold encodeOffsetX; omega)
  obtain ⟨hZ, hZ'⟩ := @coord_of_offset pos.z layout.encodeOffsetZ 64
    (by unfold encodeOffsetZ; omega) (by unfold encodeOffsetZ; omega)
  obtain ⟨hY, hY'⟩ := @coord_of_offset pos.y layout.encodeOffsetY 65536
    (by unfold encodeOffsetY; omega) (by unfold encodeOffsetY; omega)
  obtain ⟨hx', hz', hy'⟩ := encoded_fields hX' hZ' hY'
  ext
  · exact (congrArg (fun n : ℕ => (n : ℤ) - layout.encodeOffsetX) hx').trans hX
  · exact (congrArg (fun n : ℕ => (n : ℤ) - layout.encodeOffsetY) hy').trans hY
  · exact (congrArg (fun n : ℕ => (n : ℤ) - layout.encodeOffsetZ) hz').trans hZ

theorem containsChunkCoords_iff {chunkX chunkZ : ℤ} :
    layout.containsChunkCoords chunkX chunkZ = true ↔
      (layout.centerChunk.1 - 2 ≤ chunkX ∧ chunkX ≤ layout.centerChunk.1 + 2) ∧
      layout.centerChunk.2 - 2 ≤ chunkZ ∧ chunkZ ≤ layout.centerChunk.2 + 2 := by
  rw [containsChunkCoords, decide_eq_true_iff, chunkDistance, Nat.max_le]
  omega

theorem sectionSlotByCoords_eq_some {sectionX sectionZ : ℤ} {slot : ℕ} :
    layout.sectionSlotByCoords sectionX sectionY sectionZ = some slot ↔
      layout.containsChunkCoords sectionX sectionZ = true ∧
      layout.containsSectionY sectionY = true ∧
      (slot : ℤ) = (sectionX - layout.centerChunk.1 + 2) +
        5 * (sectionZ - layout.centerChunk.2 + 2) +
        25 * (sectionY - layout.cachedMinSectionY) := by
  unfold sectionSlotByCoords
  cases hchunk : layout.containsChunkCoords sectionX sectionZ with
  | false => simp
  | true =>
    cases hsection : layout.containsSectionY sectionY with
    | false => simp
    | true =>
      obtain ⟨hx, hz⟩ := containsChunkCoords_iff.1 hchunk
      have hy := (containsSectionY_iff.1 hsection).1
      have hoffset : layout.chunkSectionIndexOffset = (2 - layout.centerChunk.1) +
        5 * (2 - layout.centerChunk.2) + 25 * -layout.cachedMinSectionY := rfl
      simp only [Bool.not_true, Bool.or_self, Bool.false_eq_true, if_false, true_and]
      rw [if_neg (by omega), Option.some.injEq]
      omega

theorem exists_sectionSlot {sectionX sectionZ : ℤ}
    (hchunk : layout.containsChunkCoords sectionX sectionZ = true)
    (hsection : layout.containsSectionY sectionY = true) :
    ∃ slot, layout.sectionSlotByCoords sectionX sectionY sectionZ = some slot := by
  obtain ⟨hx, hz⟩ := containsChunkCoords_iff.1 hchunk
  have hy := (containsSectionY_iff.1 hsection).1
  refine ⟨((sectionX - layout.centerChunk.1 + 2) + 5 * (sectionZ - layout.centerChunk.2 + 2) +
    25 * (sectionY - layout.cachedMinSectionY)).toNat,
    sectionSlotByCoords_eq_some.2 ⟨hchunk, hsection, ?_⟩⟩
  omega

theorem cachedBlock_eq_some : layout.cachedBlock pos = some block ↔
      layout.sectionSlotByCoords (blockToSectionCoord pos.x) (blockToSectionCoord pos.y)
        (blockToSectionCoord pos.z) = some block.sectionSlot ∧
      block.blockPos = pos ∧ block.localIndex = localBlockIndex pos := by
  obtain ⟨blockPos, slot, index⟩ := block
  simp only [cachedBlock, Option.map_eq_some_iff, CachedLightBlock.mk.injEq]
  constructor
  · rintro ⟨_, hslot, rfl, rfl, rfl⟩
    exact ⟨hslot, rfl, rfl⟩
  · rintro ⟨hslot, rfl, rfl⟩
    exact ⟨slot, hslot, rfl, rfl, rfl⟩

theorem coord_eq {a b : ℤ} (hsection : blockToSectionCoord a = blockToSectionCoord b)
    (hlocal : a % 16 = b % 16) : a = b := by
  unfold blockToSectionCoord at hsection
  omega

theorem localBlockIndex_injective {pos' : BlockCoords}
    (h : localBlockIndex pos = localBlockIndex pos') :
    pos.x % 16 = pos'.x % 16 ∧ pos.z % 16 = pos'.z % 16 ∧ pos.y % 16 = pos'.y % 16 := by
  have hdigits : ∀ {x z y x' z' y' : ℕ}, x < 16 → x' < 16 → z < 16 → z' < 16 →
      x + z * 16 + y * 256 = x' + z' * 16 + y' * 256 → x = x' ∧ z = z' ∧ y = y' := by
    intro x z y x' z' y' hx hx' hz hz' heq
    obtain rfl : x = x' := by omega
    obtain rfl : z = z' := by omega
    exact ⟨rfl, rfl, by omega⟩
  have hlt : ∀ a : ℤ, (a % 16).toNat < 16 := by
    intro a
    omega
  have hint : ∀ a b : ℤ, (a % 16).toNat = (b % 16).toNat → a % 16 = b % 16 := by
    intro a b hab
    omega
  rw [localBlockIndex_eq, localBlockIndex_eq] at h
  obtain ⟨hx, hz, hy⟩ := hdigits (hlt _) (hlt _) (hlt _) (hlt _) h
  exact ⟨hint _ _ hx, hint _ _ hz, hint _ _ hy⟩

theorem digits_injective {a b c a' b' c' : ℤ} (ha : 0 ≤ a ∧ a < 5) (ha' : 0 ≤ a' ∧ a' < 5)
    (hb : 0 ≤ b ∧ b < 5) (hb' : 0 ≤ b' ∧ b' < 5)
    (h : a + 5 * b + 25 * c = a' + 5 * b' + 25 * c') : a = a' ∧ b = b' ∧ c = c' := by
  obtain rfl : a = a' := by omega
  obtain rfl : b = b' := by omega
  exact ⟨rfl, rfl, by omega⟩

theorem cachedBlock_injective {pos' : BlockCoords} {block' : CachedLightBlock}
    (h : layout.cachedBlock pos = some block) (h' : layout.cachedBlock pos' = some block')
    (hslot : block.sectionSlot = block'.sectionSlot)
    (hindex : block.localIndex = block'.localIndex) :
    pos = pos' := by
  obtain ⟨hsome, _, hlocal⟩ := cachedBlock_eq_some.1 h
  obtain ⟨hsome', _, hlocal'⟩ := cachedBlock_eq_some.1 h'
  obtain ⟨hchunk, hsection, heq⟩ := sectionSlotByCoords_eq_some.1 hsome
  obtain ⟨hchunk', hsection', heq'⟩ := sectionSlotByCoords_eq_some.1 hsome'
  have hsections : blockToSectionCoord pos.x = blockToSectionCoord pos'.x ∧
      blockToSectionCoord pos.y = blockToSectionCoord pos'.y ∧
      blockToSectionCoord pos.z = blockToSectionCoord pos'.z := by
    obtain ⟨hx, hz⟩ := containsChunkCoords_iff.1 hchunk
    obtain ⟨hx', hz'⟩ := containsChunkCoords_iff.1 hchunk'
    obtain ⟨hX, hZ, hY⟩ := digits_injective (by omega) (by omega) (by omega) (by omega)
      (heq.symm.trans ((congrArg Nat.cast hslot).trans heq'))
    exact ⟨by omega, by omega, by omega⟩
  obtain ⟨hX, hZ, hY⟩ := localBlockIndex_injective (hlocal.symm.trans (hindex.trans hlocal'))
  ext
  · exact coord_eq hsections.1 hX
  · exact coord_eq hsections.2.1 hY
  · exact coord_eq hsections.2.2 hZ

variable (layout) in
def blockAt (sectionSlot localIndex : ℕ) : BlockCoords where
  x := ((sectionSlot % 5 : ℕ) + layout.centerChunk.1 - 2) * 16 + (localIndex % 16 : ℕ)
  y := ((sectionSlot / 25 : ℕ) + layout.cachedMinSectionY) * 16 + (localIndex / 256 : ℕ)
  z := ((sectionSlot / 5 % 5 : ℕ) + layout.centerChunk.2 - 2) * 16 + (localIndex / 16 % 16 : ℕ)

theorem blockAt_cachedBlock (h : layout.cachedBlock pos = some block) :
    layout.blockAt block.sectionSlot block.localIndex = pos := by
  obtain ⟨hsome, _, hlocal⟩ := cachedBlock_eq_some.1 h
  obtain ⟨hchunk, hsection, hslot⟩ := sectionSlotByCoords_eq_some.1 hsome
  obtain ⟨hx, hz⟩ := containsChunkCoords_iff.1 hchunk
  have hy := (containsSectionY_iff.1 hsection).1
  unfold blockToSectionCoord at hx hz hy hslot
  rw [localBlockIndex_eq] at hlocal
  ext
  · simp only [blockAt]
    omega
  · simp only [blockAt]
    omega
  · simp only [blockAt]
    omega

end LightCacheLayout

end Steel
