import Steel.Chunk.PaletteInvariant
import Steel.Utils.ChunkPos

/-! # Chunk sections and their counters

A section caches how many of its 4096 cells hold a state that is not air, holds a fluid, or ticks.
-/

namespace Steel

structure BlockStateSectionCounts where
  isAir : Bool
  hasFluid : Bool
  randomlyTickingBlock : Bool
  randomlyTickingFluid : Bool
  deriving DecidableEq

def blocksPerSection : UInt16 := 4096

structure ChunkSection where
  states : BlockPalette
  biomes : BiomePalette
  nonEmptyBlockCount : UInt16
  fluidCount : UInt16
  tickingBlockCount : UInt16
  tickingFluidCount : UInt16

/-- The running totals of a recount. -/
structure SectionCounters where
  nonEmpty : UInt16
  fluid : UInt16
  tickingBlocks : UInt16
  tickingFluids : UInt16
  deriving DecidableEq

/-- `*count += blockCount` if the flag is set. -/
def addCount (flag : Bool) (blockCount count : UInt16) : Option UInt16 :=
  if flag then
    if count.toNat + blockCount.toNat < 2 ^ 16 then some (count + blockCount) else none
  else some count

/-- Lower or raise a counter by one if only the old or only the new state counts. -/
def changeCount (old new : Bool) (count : UInt16) : Option UInt16 :=
  if old && !new then if count = 0 then none else some (count - 1)
  else if !old && new then if count.toNat + 1 < 2 ^ 16 then some (count + 1) else none
  else some count

def accumulateCounterTraits (counters : SectionCounters) (counts : BlockStateSectionCounts)
    (blockCount : UInt16) : Option SectionCounters := do
  let nonEmpty ← addCount (!counts.isAir) blockCount counters.nonEmpty
  let fluid ← addCount counts.hasFluid blockCount counters.fluid
  let tickingBlocks ← addCount counts.randomlyTickingBlock blockCount counters.tickingBlocks
  let tickingFluids ← addCount counts.randomlyTickingFluid blockCount counters.tickingFluids
  some ⟨nonEmpty, fluid, tickingBlocks, tickingFluids⟩

def accumulatePalette (countsForState : BlockStateId → Option BlockStateSectionCounts) :
    SectionCounters → List (BlockStateId × UInt16) → Option SectionCounters
  | counters, [] => some counters
  | counters, (state, count) :: palette => do
    let counts ← countsForState state
    let counters ← accumulateCounterTraits counters counts count
    accumulatePalette countsForState counters palette

namespace ChunkSection

def newWithBiomes (states : BlockPalette) (biomes : BiomePalette) : ChunkSection :=
  ⟨states, biomes, 0, 0, 0, 0⟩

@[simp] theorem newWithBiomes_states (states : BlockPalette) (biomes : BiomePalette) :
    (newWithBiomes states biomes).states = states := rfl

def newEmpty (plainsId : UInt16) : ChunkSection :=
  ⟨.homogeneous 0, .homogeneous plainsId, 0, 0, 0, 0⟩

variable (countsForState : BlockStateId → Option BlockStateSectionCounts) (s : ChunkSection)

def recalculateCounts : Option ChunkSection := do
  let states := s.states.finalizeBuilding
  let counters ← match states with
    | .homogeneous state =>
      accumulatePalette countsForState ⟨0, 0, 0, 0⟩ [(state, blocksPerSection)]
    | .heterogeneous data => accumulatePalette countsForState ⟨0, 0, 0, 0⟩ data.palette
    | .building _ => none
  some ⟨states, s.biomes, counters.nonEmpty, counters.fluid, counters.tickingBlocks,
    counters.tickingFluids⟩

def isBuilding : Bool :=
  match s.states with
  | .building _ => true
  | _ => false

def finalizeGenerationCountsIfNeeded : Option ChunkSection :=
  if s.isBuilding then s.recalculateCounts countsForState else some s

/-- The same recount, made before a write that changes the counters. -/
def ensureCounterReadyForDelta : Option ChunkSection :=
  if s.isBuilding then s.recalculateCounts countsForState else some s

def applyCountChange (old new : BlockStateSectionCounts) : Option ChunkSection := do
  let nonEmpty ← changeCount (!old.isAir) (!new.isAir) s.nonEmptyBlockCount
  let fluid ← changeCount old.hasFluid new.hasFluid s.fluidCount
  let tickingBlocks ← changeCount old.randomlyTickingBlock new.randomlyTickingBlock
    s.tickingBlockCount
  let tickingFluids ← changeCount old.randomlyTickingFluid new.randomlyTickingFluid
    s.tickingFluidCount
  some ⟨s.states, s.biomes, nonEmpty, fluid, tickingBlocks, tickingFluids⟩

def setBlockState (x y z : Fin 16) (newState : BlockStateId) :
    Option (BlockStateId × ChunkSection) := do
  let s ← s.ensureCounterReadyForDelta countsForState
  let (oldState, states) := s.states.set x y z newState
  let s := { s with states }
  if oldState ≠ newState then
    let oldCounts ← countsForState oldState
    let newCounts ← countsForState newState
    let s ← s.applyCountChange oldCounts newCounts
    some (oldState, s)
  else some (oldState, s)

def setBlockStateForGeneration (x y z : Fin 16) (newState : BlockStateId) :
    BlockStateId × ChunkSection :=
  let (oldState, states) := s.states.enterBuildingMode.set x y z newState
  (oldState, { s with states })

end ChunkSection

end Steel
