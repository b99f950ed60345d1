import Mathlib.Algebra.Module.Defs
import Mathlib.GroupTheory.GroupAction.Ring
import Steel.Chunk.Heightmap
import Steel.Chunk.Section
import Steel.ChunkSaver.Format
import Steel.Utils.Identifier

/-! # Storing and loading sections

A stored chunk has its own palettes of block states and biomes, collected by one builder in the
order of their first use. Each section refers to them, directly or through its own palette.
-/

namespace Steel

structure PersistentBlockState where
  name : Identifier
  properties : List (String × String)
  deriving DecidableEq

inductive PersistentBiomeData where
  | homogeneous (biome : UInt16)
  | heterogeneous (palette : List UInt16) (bitsPerEntry : UInt8) (biomeData : List (BitVec 64))
  deriving DecidableEq

inductive PersistentSection where
  | homogeneous (blockState : UInt16) (biomes : PersistentBiomeData)
  | heterogeneous (palette : List UInt16) (bitsPerEntry : UInt8) (blockData : List (BitVec 64))
    (biomes : PersistentBiomeData)
  deriving DecidableEq

structure PersistentBlockEntity where
  x : UInt8
  y : Int16
  z : UInt8
  entityType : Option Identifier
  nbtData : List UInt8

structure PersistentTick where
  x : UInt8
  y : Int16
  z : UInt8
  delay : Int32
  priority : Int8
  tickType : Identifier

structure PersistentPoi where
  x : UInt8
  y : Int16
  z : UInt8
  freeTickets : UInt32

structure PersistentHeightmap where
  heightmapType : UInt8
  data : List UInt16

inductive PersistentLightSection where
  | uninitialized (sectionIndex : UInt32)
  | initialized (sectionIndex : UInt32) (data : List UInt8)
  | internal (sectionIndex : UInt32) (data : List UInt8)

def PersistentLightSection.sectionIndex : PersistentLightSection → UInt32
  | .uninitialized sectionIndex => sectionIndex
  | .initialized sectionIndex _ => sectionIndex
  | .internal sectionIndex _ => sectionIndex

structure PersistentLightData where
  block : List PersistentLightSection
  sky : List PersistentLightSection

structure PersistentChunk where
  lastModified : UInt32
  blockStates : List PersistentBlockState
  biomes : List Identifier
  sections : List PersistentSection
  blockEntities : List PersistentBlockEntity
  blockTicks : List PersistentTick
  fluidTicks : List PersistentTick
  heightmaps : List PersistentHeightmap
  light : PersistentLightData
  carvingMask : Option (List (BitVec 64))
  postprocessing : List (List UInt16)
  pois : List PersistentPoi

/-- The width of a position in a palette, a power of two; none for a single value. -/
def bitsForPaletteLen (paletteLen : ℕ) : Option UInt8 :=
  if paletteLen ≤ 1 then none
  else if paletteLen ≤ 2 then some 1
  else if paletteLen ≤ 4 then some 2
  else if paletteLen ≤ 16 then some 4
  else if paletteLen ≤ 256 then some 8
  else some 16

def packIndices (indices : List UInt32) (bits : UInt8) : List (BitVec 64) :=
  BitPack.pack bits.toNat (indices.map UInt32.toNat)

def unpackIndices (data : List (BitVec 64)) (bits : UInt8) : List UInt32 :=
  (BitPack.unpack bits.toNat data).map UInt32.ofNat

def invalidChunkData (message : String) : IoError := ⟨.invalidData, message⟩

def validatePackedPalette (palette : List UInt16) (bitsPerEntry : UInt8)
    (data : List (BitVec 64)) (entryCount globalPaletteLen : ℕ) (name : String) :
    Except IoError Unit :=
  match bitsForPaletteLen palette.length with
  | none =>
    .error (invalidChunkData s!"heterogeneous {name} palette has fewer than two entries")
  | some expectedBits =>
    if bitsPerEntry ≠ expectedBits then
      .error (invalidChunkData
        s!"heterogeneous {name} palette uses {bitsPerEntry} bits, expected {expectedBits}")
    else
      let expectedWords := entryCount ⌈/⌉ (64 / bitsPerEntry.toNat)
      if data.length ≠ expectedWords then
        .error (invalidChunkData
          s!"heterogeneous {name} data has {data.length} words, expected {expectedWords}")
      else
        match palette.find? fun index => globalPaletteLen ≤ index.toNat with
        | some invalid =>
          .error (invalidChunkData s!"{name} palette references missing global entry {invalid}")
        | none =>
          match ((unpackIndices data bitsPerEntry).take entryCount).find? fun index =>
              palette.length ≤ index.toNat with
          | some invalid =>
            .error (invalidChunkData
              s!"{name} data references missing local palette entry {invalid}")
          | none => .ok ()

variable (chunk : PersistentChunk)

def validateBiomes (sectionIndex : ℕ) : PersistentBiomeData → Except IoError Unit
  | .homogeneous biome =>
    if chunk.biomes.length ≤ biome.toNat then
      .error (invalidChunkData
        s!"section {sectionIndex} references missing biome entry {biome}")
    else .ok ()
  | .heterogeneous palette bitsPerEntry biomeData =>
    validatePackedPalette palette bitsPerEntry biomeData 64 chunk.biomes.length "biome"

def validateSection (sectionIndex : ℕ) : PersistentSection → Except IoError Unit
  | .homogeneous blockState biomes =>
    if chunk.blockStates.length ≤ blockState.toNat then
      .error (invalidChunkData
        s!"section {sectionIndex} references missing block-state entry {blockState}")
    else validateBiomes chunk sectionIndex biomes
  | .heterogeneous palette bitsPerEntry blockData biomes =>
    match validatePackedPalette palette bitsPerEntry blockData 4096 chunk.blockStates.length
        "block-state" with
    | .error error => .error error
    | .ok () => validateBiomes chunk sectionIndex biomes

def validateSectionsFrom (chunk : PersistentChunk) : ℕ → List PersistentSection →
    Except IoError Unit
  | _, [] => .ok ()
  | sectionIndex, s :: sections =>
    match validateSection chunk sectionIndex s with
    | .error error => .error error
    | .ok () => validateSectionsFrom chunk (sectionIndex + 1) sections

namespace HeightmapType

def fromPersistenceId (id : UInt8) : Option HeightmapType :=
  if id = 0 then some .worldSurface
  else if id = 1 then some .motionBlocking
  else if id = 2 then some .motionBlockingNoLeaves
  else if id = 3 then some .oceanFloor
  else if id = 4 then some .worldSurfaceWg
  else if id = 5 then some .oceanFloorWg
  else none

def debug : HeightmapType → String
  | .worldSurface => "WorldSurface"
  | .motionBlocking => "MotionBlocking"
  | .motionBlockingNoLeaves => "MotionBlockingNoLeaves"
  | .oceanFloor => "OceanFloor"
  | .worldSurfaceWg => "WorldSurfaceWg"
  | .oceanFloorWg => "OceanFloorWg"

end HeightmapType

def validateHeightmapsFrom (height : Int32) : List HeightmapType → List PersistentHeightmap →
    Except IoError Unit
  | _, [] => .ok ()
  | heightmapTypes, heightmap :: heightmaps =>
    match HeightmapType.fromPersistenceId heightmap.heightmapType with
    | none => .error (invalidChunkData s!"unknown heightmap type {heightmap.heightmapType}")
    | some heightmapType =>
      if heightmap.data.length ≠ 256 then
        .error (invalidChunkData
          s!"{heightmapType.debug} heightmap has {heightmap.data.length} columns, expected 256")
      else if heightmapType ∈ heightmapTypes then
        .error (invalidChunkData s!"duplicate {heightmapType.debug} heightmap")
      else
        match heightmap.data.find? fun value => height.toInt < value.toNat with
        | some value =>
          .error (invalidChunkData
            (s!"{heightmapType.debug} heightmap contains out-of-range value {value} " ++
              s!"for height {height}"))
        | none => validateHeightmapsFrom height (heightmapType :: heightmapTypes) heightmaps

def dataLayerSize : ℕ := 16 * 16 * 16 / 2

/-- One light layer; a section index always fits the platform's word. -/
def validateLightFrom (lightSectionCount : ℕ) (layerName : String) : List ℕ →
    List PersistentLightSection → Except IoError Unit
  | _, [] => .ok ()
  | indices, s :: sections =>
    let index := s.sectionIndex.toNat
    if lightSectionCount ≤ index then
      .error (invalidChunkData
        s!"{layerName} light section index {index} is outside 0..{lightSectionCount}")
    else if index ∈ indices then
      .error (invalidChunkData s!"duplicate {layerName} light section {index}")
    else
      let size := match s with
        | .uninitialized _ => dataLayerSize
        | .initialized _ data => data.length
        | .internal _ data => data.length
      if size ≠ dataLayerSize then
        .error (invalidChunkData
          (s!"{layerName} light section {index} has {size} bytes, " ++
            s!"expected {dataLayerSize}"))
      else validateLightFrom lightSectionCount layerName (index :: indices) sections

/-- `i32::checked_add`. -/
def checkedAddInt32 (a b : Int32) : Option Int32 :=
  if -2 ^ 31 ≤ a.toInt + b.toInt ∧ a.toInt + b.toInt < 2 ^ 31 then some (a + b) else none

/-- All positions that are checked, with the kind of their owner. -/
def PersistentChunk.positions : List (String × UInt8 × Int16 × UInt8) :=
  chunk.blockEntities.map (fun entry => ("block entity", entry.x, entry.y, entry.z)) ++
  chunk.blockTicks.map (fun entry => ("block tick", entry.x, entry.y, entry.z)) ++
  chunk.fluidTicks.map (fun entry => ("fluid tick", entry.x, entry.y, entry.z)) ++
  chunk.pois.map (fun entry => ("POI", entry.x, entry.y, entry.z))

def validatePositions (minY maxY : Int32) : List (String × UInt8 × Int16 × UInt8) →
    Except IoError Unit
  | [] => .ok ()
  | (name, x, y, z) :: positions =>
    if 16 ≤ x.toNat ∨ 16 ≤ z.toNat ∨ y.toInt < minY.toInt ∨ maxY.toInt ≤ y.toInt then
      .error (invalidChunkData s!"{name} position ({x}, {y}, {z}) is outside the chunk")
    else validatePositions minY maxY positions

def validateGeneration (status : ChunkStatus) (height : Int32) (expectedSections : ℕ) :
    Except IoError Unit := do
  if status = .full ∧ chunk.carvingMask.isSome = true then
    .error (invalidChunkData "Full chunk contains a proto carving mask")
  match chunk.carvingMask with
  | none => .ok ()
  | some mask =>
    let maxWords := (256 * height.toInt.toNat) ⌈/⌉ 64
    if maxWords < mask.length then
      .error (invalidChunkData
        s!"carving mask has {mask.length} words, maximum is {maxWords}")
  if expectedSections < chunk.postprocessing.length then
    .error (invalidChunkData
      (s!"chunk has {chunk.postprocessing.length} postprocessing section lists, " ++
        s!"maximum is {expectedSections}"))

def validateRange (minY height : Int32) : Except IoError Unit := do
  if height.toInt ≤ 0 ∨ height % 16 ≠ 0 ∨ minY % 16 ≠ 0 then
    .error ⟨.invalidInput,
      s!"chunk world range must be section-aligned, got min_y={minY}, height={height}"⟩
  let expectedSections := (height / 16).toInt.toNat
  if chunk.sections.length ≠ expectedSections then
    .error (invalidChunkData
      s!"chunk has {chunk.sections.length} sections, expected {expectedSections}")

def validateRest (status : ChunkStatus) (minY height : Int32) : Except IoError Unit := do
  let expectedSections := (height / 16).toInt.toNat
  validateHeightmapsFrom height [] chunk.heightmaps
  validateLightFrom (expectedSections + 2) "block" [] chunk.light.block
  validateLightFrom (expectedSections + 2) "sky" [] chunk.light.sky
  match checkedAddInt32 minY height with
  | none => .error ⟨.invalidInput, "world height range overflowed"⟩
  | some maxY => validatePositions minY maxY chunk.positions
  validateGeneration chunk status height expectedSections

def validatePersistentChunk (status : ChunkStatus) (minY height : Int32) : Except IoError Unit := do
  validateRange chunk minY height
  validateSectionsFrom chunk 0 chunk.sections
  validateRest chunk status minY height

/-- The parts of the block and biome registries that storage uses. -/
structure Registry where
  /-- The key of the block with this state. -/
  byStateId : BlockStateId → Option Identifier
  getProperties : BlockStateId → List (String × String)
  stateIdFromProperties : Identifier → List (String × String) → Option BlockStateId
  /-- The key of the biome with this id. -/
  biomeById : ℕ → Option Identifier
  biomeIdFromKey : Identifier → Option ℕ

/-- An error that is returned, or a panic. -/
inductive Failure where
  | io (error : IoError)
  | panic
  deriving DecidableEq

def unwrap {α : Type} : Option α → Except Failure α
  | some a => .ok a
  | none => .error .panic

structure ChunkBuilder where
  blockStates : List PersistentBlockState
  biomes : List Identifier
  deriving DecidableEq

def ChunkBuilder.new : ChunkBuilder := ⟨[], []⟩

/-- The index of an entry, which is appended if it is new. -/
def ensureEntry {α : Type} [DecidableEq α] (entries : List α) (entry : α) : UInt16 × List α :=
  match entries.findIdx? (· = entry) with
  | some idx => (UInt16.ofNat idx, entries)
  | none => (UInt16.ofNat entries.length, entries ++ [entry])

section Store

variable (registry : Registry)

def ensureBlockState (builder : ChunkBuilder) (blockId : BlockStateId) :
    Except Failure (UInt16 × ChunkBuilder) := do
  let key ← unwrap (registry.byStateId blockId)
  let (idx, blockStates) := ensureEntry builder.blockStates
    ⟨key, registry.getProperties blockId⟩
  .ok (idx, { builder with blockStates })

def ensureBiome (builder : ChunkBuilder) (biomeId : UInt16) :
    Except Failure (UInt16 × ChunkBuilder) := do
  let key ← unwrap (registry.biomeById biomeId.toNat)
  let (idx, biomes) := ensureEntry builder.biomes key
  .ok (idx, { builder with biomes })

/-- Map a section palette to chunk palette indices, from left to right. -/
def ensureAll {V : Type} (ensure : ChunkBuilder → V → Except Failure (UInt16 × ChunkBuilder)) :
    ChunkBuilder → List V → Except Failure (List UInt16 × ChunkBuilder)
  | builder, [] => .ok ([], builder)
  | builder, v :: values => do
    let (idx, builder) ← ensure builder v
    let (palette, builder) ← ensureAll ensure builder values
    .ok (idx :: palette, builder)

def cellIndices {V : Type} [DecidableEq V] {d : ℕ} (data : HeterogeneousPalette V d) :
    List UInt32 :=
  data.cube.flat.map fun v => UInt32.ofNat ((data.palette.findIdx? fun e => e.1 = v).getD 0)

def biomesToPersistent (builder : ChunkBuilder) :
    BiomePalette → Except Failure (PersistentBiomeData × ChunkBuilder)
  | .homogeneous biomeId => do
    let (biome, builder) ← ensureBiome registry builder biomeId
    .ok (.homogeneous biome, builder)
  | .heterogeneous data => do
    let (palette, builder) ← ensureAll (ensureBiome registry) builder (data.palette.map Prod.fst)
    let bits ← unwrap (bitsForPaletteLen palette.length)
    .ok (.heterogeneous palette bits (packIndices (cellIndices data) bits), builder)
  | .building _ => .error .panic

def sectionToPersistent (builder : ChunkBuilder) (s : ChunkSection) :
    Except Failure (PersistentSection × ChunkBuilder) := do
  let (biomes, builder) ← biomesToPersistent registry builder s.biomes
  match s.states with
  | .homogeneous blockId =>
    let (blockState, builder) ← ensureBlockState registry builder blockId
    .ok (.homogeneous blockState biomes, builder)
  | .heterogeneous data =>
    let (palette, builder) ← ensureAll (ensureBlockState registry) builder
      (data.palette.map Prod.fst)
    let bits ← unwrap (bitsForPaletteLen palette.length)
    .ok (.heterogeneous palette bits (packIndices (cellIndices data) bits) biomes, builder)
  | .building _ => .error .panic

def sectionsToPersistent : ChunkBuilder → List ChunkSection →
    Except Failure (List PersistentSection × ChunkBuilder)
  | builder, [] => .ok ([], builder)
  | builder, s :: sections => do
    let (persistent, builder) ← sectionToPersistent registry builder s
    let (rest, builder) ← sectionsToPersistent builder sections
    .ok (persistent :: rest, builder)

end Store

/-- `{:?}` of a list of property names and values. -/
def debugProperties (properties : List (String × String)) : String :=
  "[" ++ ", ".intercalate (properties.map fun p => "(\"" ++ p.1 ++ "\", \"" ++ p.2 ++ "\")") ++ "]"

section Load

variable (registry : Registry) (chunk : PersistentChunk)

def resolveBlockState (index : UInt16) : Except Failure BlockStateId :=
  match chunk.blockStates[index.toNat]? with
  | none => .error (.io (invalidChunkData s!"missing block-state palette entry {index}"))
  | some state =>
    match registry.stateIdFromProperties state.name state.properties with
    | none =>
      .error (.io (invalidChunkData
        (s!"unresolvable block state {state.name} with properties " ++
          debugProperties state.properties)))
    | some stateId =>
      let canonical := registry.getProperties stateId
      let uniqueNames := (state.properties.map Prod.fst).dedup
      if uniqueNames.length ≠ state.properties.length ∨
          canonical.length ≠ state.properties.length ∨
          (canonical.any fun property => !decide (property ∈ state.properties)) = true then
        .error (.io (invalidChunkData
          (s!"noncanonical block state {state.name} with properties " ++
            debugProperties state.properties)))
      else .ok stateId

def resolveBiome (index : UInt16) : Except Failure UInt16 :=
  match chunk.biomes[index.toNat]? with
  | none => .error (.io (invalidChunkData s!"missing biome palette entry {index}"))
  | some biomeKey =>
    match registry.biomeIdFromKey biomeKey with
    | none => .error (.io (invalidChunkData s!"unknown biome {biomeKey}"))
    | some id =>
      if id < 2 ^ 16 then .ok (UInt16.ofNat id)
      else .error (.io (invalidChunkData s!"biome {biomeKey} id {id} does not fit u16"))

/-- Fill a cube in y, z, x order with the palette values the indices name; an index that is
missing or out of range is a panic. -/
def fillCube {V : Type} {d : ℕ} (palette : List V) (indices : List UInt32) :
    Except Failure (Cube V d) :=
  let cell (i : Fin (d * d * d)) : Option V :=
    (indices[(i : ℕ)]?).bind fun index => palette[index.toNat]?
  if h : ∀ i, (cell i).isSome = true then
    .ok fun y z x => (cell (Cube.index x y z)).get (h _)
  else .error .panic

def persistentToBiomes : PersistentBiomeData → Except Failure BiomePalette
  | .homogeneous biome => do
    let biomeId ← resolveBiome registry chunk biome
    .ok (.homogeneous biomeId)
  | .heterogeneous palette bitsPerEntry biomeData => do
    let runtimePalette ← palette.mapM (resolveBiome registry chunk)
    let cube ← fillCube runtimePalette (unpackIndices biomeData bitsPerEntry)
    .ok (PalettedContainer.fromCube cube)

def persistentToSection : PersistentSection → Except Failure ChunkSection
  | .homogeneous blockState biomes => do
    let blockId ← resolveBlockState registry chunk blockState
    let biomeData ← persistentToBiomes registry chunk biomes
    .ok (ChunkSection.newWithBiomes (.homogeneous blockId) biomeData)
  | .heterogeneous palette bitsPerEntry blockData biomes => do
    let runtimePalette ← palette.mapM (resolveBlockState registry chunk)
    let cube ← fillCube runtimePalette (unpackIndices blockData bitsPerEntry)
    let biomeData ← persistentToBiomes registry chunk biomes
    .ok (ChunkSection.newWithBiomes (PalettedContainer.fromCube cube) biomeData)

end Load

end Steel
