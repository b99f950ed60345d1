import Steel.Chunk.PalettedContainer
import Steel.Lib.BitPack
import Steel.Lib.Surface

/-! # Heightmaps

A heightmap stores, for each column of a chunk, the height of its first available block above all
blocks that count for the type of the map.
-/

namespace Steel

inductive HeightmapType where
  | worldSurface
  | motionBlocking
  | motionBlockingNoLeaves
  | oceanFloor
  | worldSurfaceWg
  | oceanFloorWg
  deriving DecidableEq

/-- What the registry knows of block states. -/
structure HeightmapFacts where
  isAir : BlockStateId → Bool
  blocksMotion : BlockStateId → Bool
  hasFluid : BlockStateId → Bool
  isLeaves : BlockStateId → Bool

namespace HeightmapType

def mask : HeightmapType → BitVec 8
  | worldSurface => 1 <<< 0
  | motionBlocking => 1 <<< 1
  | motionBlockingNoLeaves => 1 <<< 2
  | oceanFloor => 1 <<< 3
  | worldSurfaceWg => 1 <<< 4
  | oceanFloorWg => 1 <<< 5

end HeightmapType

namespace HeightmapFacts

open HeightmapType

variable (facts : HeightmapFacts)

def worldSurfaceOpacityMask (state : BlockStateId) : BitVec 8 :=
  if facts.isAir state then 0 else worldSurface.mask ||| worldSurfaceWg.mask

def stateOpacityMask (state : BlockStateId) : BitVec 8 :=
  if facts.isAir state then 0
  else
    let mask := worldSurface.mask ||| worldSurfaceWg.mask
    let blocksMotion := facts.blocksMotion state
    let mask := if blocksMotion then mask ||| (oceanFloor.mask ||| oceanFloorWg.mask) else mask
    if blocksMotion || facts.hasFluid state then
      let mask := mask ||| motionBlocking.mask
      if !facts.isLeaves state then mask ||| motionBlockingNoLeaves.mask else mask
    else mask

def heightmapOpacityMask (state : BlockStateId) (requestedMask : BitVec 8) : BitVec 8 :=
  let worldSurfaceMask := worldSurface.mask ||| worldSurfaceWg.mask
  if requestedMask &&& ~~~worldSurfaceMask = 0 then
    facts.worldSurfaceOpacityMask state &&& requestedMask
  else facts.stateOpacityMask state &&& requestedMask

def isOpaque (mapType : HeightmapType) (state : BlockStateId) : Bool :=
  facts.heightmapOpacityMask state mapType.mask ≠ 0

end HeightmapFacts

/-- Heights are stored relative to `minY`. -/
structure Heightmap where
  data : Fin 256 → UInt16
  mapType : HeightmapType
  minY : ℤ
  height : ℤ

namespace Heightmap

def new (mapType : HeightmapType) (minY height : ℤ) : Heightmap :=
  ⟨fun _ => 0, mapType, minY, height⟩

def getIndex (localX localZ : Fin 16) : Fin 256 := ⟨localX + localZ * 16, by omega⟩

variable (map : Heightmap)

def getFirstAvailable (localX localZ : Fin 16) : ℤ :=
  (map.data (getIndex localX localZ)).toNat + map.minY

def setHeight (localX localZ : Fin 16) (height : ℤ) : Heightmap :=
  { map with
    data := Function.update map.data (getIndex localX localZ) (.ofInt (height - map.minY)) }

/-- The loop of `update`, down to `minY`. -/
def scanDown (facts : HeightmapFacts) (map : Heightmap) (blockAt : ℤ → BlockStateId) : ℕ → ℤ
  | 0 => map.minY
  | offset + 1 =>
    let scanY := map.minY + offset
    if facts.isOpaque map.mapType (blockAt scanY) then scanY + 1
    else scanDown facts map blockAt offset

/-- Whether a height has been stored, and the map afterwards. -/
def update (facts : HeightmapFacts) (map : Heightmap) (localX : Fin 16) (y : ℤ) (localZ : Fin 16)
    (state : BlockStateId) (getBlock : Fin 16 → ℤ → Fin 16 → BlockStateId) : Bool × Heightmap :=
  let firstAvailable := map.getFirstAvailable localX localZ
  if y ≤ firstAvailable - 2 then (false, map)
  else if facts.isOpaque map.mapType state then
    if y ≥ firstAvailable then (true, map.setHeight localX localZ (y + 1)) else (false, map)
  else if firstAvailable - 1 = y then
    (true, map.setHeight localX localZ
      (scanDown facts map (fun scanY => getBlock localX scanY localZ) (y - map.minY).toNat))
  else (false, map)

/-- The bits for values from zero to the height; the height is cast to 32 bits. -/
def calculateBitsPerValue (height : ℤ) : ℕ :=
  let maxValue := BitVec.ofInt 32 height + 1
  if maxValue ≤ 1 then 1 else 32 - (maxValue - 1).clz.toNat

def getRawData : List (BitVec 64) :=
  let bitsPerValue := calculateBitsPerValue map.height
  let valuesPerLong := 64 / bitsPerValue
  let mask := ((1 : BitVec 64) <<< bitsPerValue) - 1
  (List.ofFn map.data).zipIdx.foldl
    (fun result entry =>
      result.modify (entry.2 / valuesPerLong) fun word =>
        word ||| (BitVec.ofNat 64 entry.1.toNat &&& mask) <<<
          (entry.2 % valuesPerLong * bitsPerValue))
    (List.replicate (256 ⌈/⌉ valuesPerLong) 0)

end Heightmap

structure ChunkHeightmaps where
  worldSurfaceWg : Option Heightmap
  oceanFloorWg : Option Heightmap
  worldSurface : Option Heightmap
  motionBlocking : Option Heightmap
  motionBlockingNoLeaves : Option Heightmap
  oceanFloor : Option Heightmap

namespace ChunkHeightmaps

def empty : ChunkHeightmaps := ⟨none, none, none, none, none, none⟩

variable (maps : ChunkHeightmaps)

def get : HeightmapType → Option Heightmap
  | .worldSurfaceWg => maps.worldSurfaceWg
  | .oceanFloorWg => maps.oceanFloorWg
  | .worldSurface => maps.worldSurface
  | .motionBlocking => maps.motionBlocking
  | .motionBlockingNoLeaves => maps.motionBlockingNoLeaves
  | .oceanFloor => maps.oceanFloor

def store (map : Heightmap) : HeightmapType → ChunkHeightmaps
  | .worldSurfaceWg => { maps with worldSurfaceWg := some map }
  | .oceanFloorWg => { maps with oceanFloorWg := some map }
  | .worldSurface => { maps with worldSurface := some map }
  | .motionBlocking => { maps with motionBlocking := some map }
  | .motionBlockingNoLeaves => { maps with motionBlockingNoLeaves := some map }
  | .oceanFloor => { maps with oceanFloor := some map }

def getOrInsert (mapType : HeightmapType) (minY height : ℤ) : ChunkHeightmaps :=
  match maps.get mapType with
  | some _ => maps
  | none => maps.store (.new mapType minY height) mapType

def setPrimedHeight (mapType : HeightmapType) (localX localZ : Fin 16)
    (height : ℤ) : Option ChunkHeightmaps :=
  (maps.get mapType).map fun map => maps.store (map.setHeight localX localZ height) mapType

/-- The maps while they are primed, and what is still looked for in each column. -/
structure Priming where
  maps : ChunkHeightmaps
  pendingMasks : Fin 256 → BitVec 8
  pendingColumns : ℕ

variable (facts : HeightmapFacts) (types : List (HeightmapType × BitVec 8))

def primeColumn (y : ℤ) (stateAt : Fin 256 → BlockStateId) (priming : Priming)
    (columnIndex : Fin 256) : Option Priming :=
  let pendingMask := priming.pendingMasks columnIndex
  if pendingMask = 0 then some priming
  else
    let matchedMask := facts.heightmapOpacityMask (stateAt columnIndex) pendingMask
    if matchedMask = 0 then some priming
    else do
      let x : Fin 16 := ⟨columnIndex % 16, by omega⟩
      let z : Fin 16 := ⟨columnIndex / 16, by omega⟩
      let maps ← types.foldlM
        (fun maps entry =>
          if matchedMask &&& entry.2 ≠ 0 then maps.setPrimedHeight entry.1 x z (y + 1)
          else some maps)
        priming.maps
      let pendingMask := pendingMask &&& ~~~matchedMask
      pure ⟨maps, Function.update priming.pendingMasks columnIndex pendingMask,
        if pendingMask = 0 then priming.pendingColumns - 1 else priming.pendingColumns⟩

def primeLayer (y : ℤ) (stateAt : Fin 256 → BlockStateId) (priming : Priming) : Option Priming :=
  (List.finRange 256).foldlM (primeColumn facts types y stateAt) priming

def layerState (states : BlockPalette) (localY : Fin 16) (columnIndex : Fin 256) : BlockStateId :=
  states.getAtIndex ⟨localY * 16 * 16 + columnIndex, by omega⟩

/-- The loop over the layers of a section, and whether it breaks out of the loop over sections. -/
def primeLayers (minY : ℤ) (sectionIdx : ℕ) (states : BlockPalette) :
    List (Fin 16) → Priming → Option (Bool × Priming)
  | [], priming => some (false, priming)
  | localY :: layers, priming => do
    let y := minY + (sectionIdx * 16 + localY : ℕ)
    let priming ← primeLayer facts types y (layerState states localY) priming
    if priming.pendingColumns = 0 then pure (true, priming)
    else primeLayers minY sectionIdx states layers priming

def isHomogeneousAir : BlockPalette → Bool
  | .homogeneous state => facts.isAir state
  | _ => false

def primeSections (minY : ℤ) : List BlockPalette → Priming → Option Priming
  | [], priming => some priming
  | states :: below, priming =>
    if isHomogeneousAir facts states then primeSections minY below priming
    else do
      let (done, priming) ←
        primeLayers facts types minY below.length states (List.finRange 16).reverse priming
      if done then pure priming else primeSections minY below priming

def primeFromSections (maps : ChunkHeightmaps) (types : List HeightmapType) (minY height : ℤ)
    (sections : List BlockPalette) : Option ChunkHeightmaps :=
  let typesToPrime := (types.filter fun mapType => (maps.get mapType).isNone).map fun mapType =>
    (mapType, mapType.mask)
  let pendingMaskBase := typesToPrime.foldl (fun mask entry => mask ||| entry.2) 0
  if typesToPrime.isEmpty then some maps
  else
    let maps := typesToPrime.foldl (fun maps entry => maps.getOrInsert entry.1 minY height) maps
    (primeSections facts typesToPrime minY sections.reverse
      ⟨maps, fun _ => pendingMaskBase, 256⟩).map (·.maps)

end ChunkHeightmaps

end Steel
