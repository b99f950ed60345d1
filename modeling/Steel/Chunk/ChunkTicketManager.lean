import Steel.Chunk.ChunkPyramid
import Steel.Lib.HashMap
import Steel.Lib.Tally
import Steel.Utils.ChunkPos

/-! # Chunk tickets

Tickets keep chunks loaded and simulated around their positions. Lower levels are stronger, and the
level of a ticket grows by one with each chunk of distance.
-/

namespace Steel

def maxSupportedViewDistance : ℕ := 128

def fullChunkLevelRaw : ℕ := maxSupportedViewDistance + 2

/-- `RADIUS_AROUND_FULL_CHUNK`. -/
def radiusAroundFullChunk : ℕ := fullDependencies.getRadiusOf .empty

def maxLevelRaw : ℕ := fullChunkLevelRaw + radiusAroundFullChunk

theorem maxLevelRaw_eq : maxLevelRaw = 141 := by decide

/-- A level; the constructors of the source build no level beyond the maximum. -/
structure ChunkTicketLevel where
  raw : ℕ
  le_max : raw ≤ maxLevelRaw
  deriving DecidableEq

namespace ChunkTicketLevel

theorem raw_injective : Function.Injective raw := by
  rintro ⟨a, ha⟩ ⟨b, hb⟩ rfl
  rfl

instance : LinearOrder ChunkTicketLevel := LinearOrder.lift' raw raw_injective

theorem le_def {a b : ChunkTicketLevel} : a ≤ b ↔ a.raw ≤ b.raw := Iff.rfl

/-- `ENTITY_TICKING_CHUNK`. -/
def entityTickingChunk : ChunkTicketLevel := ⟨maxSupportedViewDistance, by decide⟩

/-- `BLOCK_TICKING_CHUNK`. -/
def blockTickingChunk : ChunkTicketLevel := ⟨maxSupportedViewDistance + 1, by decide⟩

/-- `new`. -/
def new (raw : ℕ) : Option ChunkTicketLevel :=
  if h : raw ≤ maxLevelRaw then some ⟨raw, h⟩ else none

def forFullChunkRadius (radius : UInt8) : ChunkTicketLevel :=
  ⟨fullChunkLevelRaw - radius.toNat, (Nat.sub_le ..).trans (Nat.le_add_right ..)⟩

def forEntityTickingRadius (radius : UInt8) : ChunkTicketLevel :=
  ⟨entityTickingChunk.raw - radius.toNat, (Nat.sub_le ..).trans entityTickingChunk.le_max⟩

variable (level : ChunkTicketLevel)

def isFull : Bool := level.raw ≤ fullChunkLevelRaw

def isBlockTicking : Bool := level.raw ≤ blockTickingChunk.raw

def isEntityTicking : Bool := level.raw ≤ entityTickingChunk.raw

def withDistance (distance : ℕ) : Option ChunkTicketLevel :=
  new (min (level.raw + distance) 255)

def distanceToMax : ℕ := maxLevelRaw - level.raw

def distanceToBlockTicking : ℕ := blockTickingChunk.raw - level.raw

end ChunkTicketLevel

open ChunkTicketLevel

def isBlockTicking (level : Option ChunkTicketLevel) : Bool :=
  level.any ChunkTicketLevel.isBlockTicking

def isEntityTicking (level : Option ChunkTicketLevel) : Bool :=
  level.any ChunkTicketLevel.isEntityTicking

/-- The status that a chunk may be generated to. -/
def generationStatus (level : Option ChunkTicketLevel) : Option ChunkStatus :=
  level.bind fun l =>
    if l.isFull then some .full else fullDependencies.get (l.raw - fullChunkLevelRaw)

/-- A ticket. Each constructor of the source loads all chunks that it simulates. -/
structure ChunkTicket where
  loadLevel : ChunkTicketLevel
  simulationLevel : Option ChunkTicketLevel
  covered : ∀ level ∈ simulationLevel, level.distanceToBlockTicking ≤ loadLevel.distanceToMax
  deriving DecidableEq

namespace ChunkTicket

theorem capped_le (a b : UInt8) : (if a < b then a else b).toNat ≤ a.toNat := by
  split
  · exact le_rfl
  · exact not_lt.mp ‹_›

def loading (loadLevel : ChunkTicketLevel) : ChunkTicket := ⟨loadLevel, none, by simp⟩

def fullChunks (radius : UInt8) : ChunkTicket := loading (.forFullChunkRadius radius)

def simulatedFullChunks (radius : UInt8) : ChunkTicket where
  loadLevel := .forFullChunkRadius radius
  simulationLevel := some (.forFullChunkRadius radius)
  covered := by
    rintro level ⟨rfl⟩
    exact Nat.sub_le_sub_right (by decide) _

def fullChunksWithEntityTicking (loadRadius entityTickingRadius : UInt8) : ChunkTicket :=
  let capped := if loadRadius < entityTickingRadius then loadRadius else entityTickingRadius
  { loadLevel := .forFullChunkRadius loadRadius
    simulationLevel := some (.forEntityTickingRadius capped)
    covered := by
      rintro level ⟨rfl⟩
      have hle : capped.toNat ≤ loadRadius.toNat := capped_le loadRadius entityTickingRadius
      have hmax := maxLevelRaw_eq
      simp only [distanceToBlockTicking, distanceToMax,
        forEntityTickingRadius, forFullChunkRadius,
        blockTickingChunk, entityTickingChunk,
        fullChunkLevelRaw, maxSupportedViewDistance]
      omega }

/-- Loading reaches beyond the view distance, simulation at most to it. -/
def player (viewDistance simulationRadius : UInt8) : ChunkTicket :=
  let capped := if viewDistance < simulationRadius then viewDistance else simulationRadius
  { loadLevel := .forEntityTickingRadius viewDistance
    simulationLevel := some (.forEntityTickingRadius capped)
    covered := by
      rintro level ⟨rfl⟩
      have hle : capped.toNat ≤ viewDistance.toNat := capped_le viewDistance simulationRadius
      have hmax := maxLevelRaw_eq
      simp only [distanceToBlockTicking, distanceToMax,
        forEntityTickingRadius, blockTickingChunk,
        entityTickingChunk, maxSupportedViewDistance]
      omega }

end ChunkTicket

structure LevelChange where
  pos : ChunkPos
  newLevel : Option ChunkTicketLevel
  newSimulationLevel : Option ChunkTicketLevel
  deriving DecidableEq

abbrev Levels := HashMap ChunkPos ChunkTicketLevel

structure ChunkTicketManager where
  tickets : HashMap ChunkPos (List ChunkTicket)
  levels : Levels
  simulationLevels : Levels
  dirty : Bool
  changes : List LevelChange

/-- The orders in which one propagation iterates the maps. -/
structure UpdateOrder where
  tickets : Iteration ChunkPos
  levels : Iteration ChunkPos
  oldLevels : Iteration ChunkPos
  simulationLevels : Iteration ChunkPos
  oldSimulationLevels : Iteration ChunkPos

def UpdateOrder.id : UpdateOrder := ⟨.id, .id, .id, .id, .id⟩

namespace ChunkTicketManager

def new : ChunkTicketManager := ⟨∅, ∅, ∅, false, []⟩

variable (m : ChunkTicketManager)

def addTicket (pos : ChunkPos) (ticket : ChunkTicket) : ChunkTicketManager :=
  { m with
    tickets := m.tickets.insert pos ((m.tickets.lookup pos).getD [] ++ [ticket])
    dirty := true }

def removeTicket (pos : ChunkPos) (ticket : ChunkTicket) : Bool × ChunkTicketManager :=
  match m.tickets.lookup pos with
  | none => (false, m)
  | some tickets =>
    match tickets.findIdx? fun stored => stored = ticket with
    | none => (false, m)
    | some idx =>
      let tickets := swapRemove tickets idx
      (true, { m with
        tickets := if tickets = [] then m.tickets.erase pos else m.tickets.insert pos tickets
        dirty := true })

def removeAllTicketsAt (pos : ChunkPos) : Bool × ChunkTicketManager :=
  let removed := (m.tickets.lookup pos).isSome
  (removed, { m with tickets := m.tickets.erase pos, dirty := m.dirty || removed })

/-- The offsets from `-radius` to `radius`. -/
def offsets (radius : ℕ) : List ℤ :=
  (List.range (2 * radius + 1)).map fun i : ℕ => (i : ℤ) - radius

/-- The level of one chunk around a source. The distance is a byte, and sums of coordinates
wrap around. -/
def paintAt (source : ChunkPos) (level : ChunkTicketLevel) (levels : Levels) (dx dy : ℤ) : Levels :=
  let distance := max dx.natAbs dy.natAbs % 256
  match level.withDistance distance with
  | none => levels
  | some level =>
    insertLeast levels ⟨source.x + Int32.ofInt dx, source.z + Int32.ofInt dy⟩ level

def paint (source : ChunkPos) (level : ChunkTicketLevel) (radius : ℕ) (levels : Levels) : Levels :=
  (offsets radius).foldl (fun levels dy =>
    (offsets radius).foldl (fun levels dx => paintAt source level levels dx dy) levels) levels

def propagate (source : ChunkPos) (tickets : List ChunkTicket) (levels : Levels × Levels) :
    Levels × Levels :=
  match (tickets.map ChunkTicket.loadLevel).min? with
  | none => levels
  | some sourceLevel =>
    let loaded := paint source sourceLevel sourceLevel.distanceToMax levels.1
    match (tickets.filterMap ChunkTicket.simulationLevel).min? with
    | none => (loaded, levels.2)
    | some simulationLevel =>
      (loaded, paint source simulationLevel simulationLevel.distanceToBlockTicking levels.2)

def propagateAll (order : Iteration ChunkPos) : Levels × Levels :=
  (order.keys m.tickets).foldl (fun levels pos =>
    propagate pos ((m.tickets.lookup pos).getD []) levels) (∅, ∅)

def changedLevels (order : Iteration ChunkPos) (oldLevels levels simulationLevels : Levels) :
    List LevelChange :=
  (order.keys levels).filterMap fun pos =>
    if oldLevels.lookup pos = levels.lookup pos then none
    else some ⟨pos, levels.lookup pos, simulationLevels.lookup pos⟩

def removedLevels (order : Iteration ChunkPos) (oldLevels levels : Levels) : List LevelChange :=
  (order.keys oldLevels).filterMap fun pos =>
    if (levels.lookup pos).isSome then none else some ⟨pos, none, none⟩

/-- `record_simulation_only_changes`: first the simulated chunks, then those no more simulated. -/
def simulationOnlyChanges (order oldOrder : Iteration ChunkPos)
    (oldLevels levels oldSimulationLevels simulationLevels : Levels) : List LevelChange :=
  ((order.keys simulationLevels).filterMap fun pos =>
    if oldLevels.lookup pos ≠ levels.lookup pos then none
    else if oldSimulationLevels.lookup pos = simulationLevels.lookup pos then none
    else some ⟨pos, levels.lookup pos, simulationLevels.lookup pos⟩) ++
  (oldOrder.keys oldSimulationLevels).filterMap fun pos =>
    if oldLevels.lookup pos ≠ levels.lookup pos ∨ (simulationLevels.lookup pos).isSome then none
    else some ⟨pos, levels.lookup pos, none⟩

def runAllUpdates (order : UpdateOrder) : ChunkTicketManager :=
  if !m.dirty then { m with changes := [] }
  else
    let (levels, simulationLevels) := m.propagateAll order.tickets
    { m with
      levels := levels
      simulationLevels := simulationLevels
      dirty := false
      changes := changedLevels order.levels m.levels levels simulationLevels ++
        removedLevels order.oldLevels m.levels levels ++
        simulationOnlyChanges order.simulationLevels order.oldSimulationLevels m.levels levels
          m.simulationLevels simulationLevels }

def getLevel (pos : ChunkPos) : Option ChunkTicketLevel := m.levels.lookup pos

def getSimulationLevel (pos : ChunkPos) : Option ChunkTicketLevel := m.simulationLevels.lookup pos

end ChunkTicketManager

end Steel
