import Mathlib.Data.Prod.Lex
import Steel.Chunk.PlayerChunkView
import Steel.Entity.EntityRelationships
import Steel.Lib.Buckets
import Steel.Lib.HashMap
import Steel.Utils.SectionPos
import Steel.Utils.Uuid

/-! # The world entity manager

The manager owns the runtime entities of a world, whatever chunks are loaded.
-/

namespace Steel

open Function

structure EntitySpatialCell where
  x : ℤ
  y : ℤ
  z : ℤ
  deriving DecidableEq

structure EntitySpatialCellBounds where
  minimum : EntitySpatialCell
  maximum : EntitySpatialCell

def EntitySpatialCellBounds.cells (bounds : EntitySpatialCellBounds) : List EntitySpatialCell :=
  (rangeInclusive bounds.minimum.x bounds.maximum.x).flatMap fun x =>
    (rangeInclusive bounds.minimum.y bounds.maximum.y).flatMap fun y =>
      (rangeInclusive bounds.minimum.z bounds.maximum.z).map fun z => ⟨x, y, z⟩

/-- What never changes about an entity. The last two fields are those of its type. -/
structure SharedEntity where
  id : EntityId
  uuid : Uuid
  isAlwaysTicking : Bool
  canSerialize : Bool
  clientTrackingRange : ℤ
  deriving DecidableEq

/-- What entities answer during a call. -/
structure EntityView (Box : Type) where
  removalReason : EntityId → Option RemovalReason
  vehicle : EntityId → Option EntityId
  passengers : EntityId → List EntityId
  hasExactlyOnePlayerPassenger : EntityId → Bool
  /-- The section of the position. -/
  sectionPos : EntityId → SectionPos
  boundingBox : EntityId → Box

namespace EntityView

variable {Box : Type} (view : EntityView Box)

def isRemoved (id : EntityId) : Bool := (view.removalReason id).isSome

def isPassenger (id : EntityId) : Bool := (view.vehicle id).isSome

end EntityView

def RemovalReason.shouldSave : RemovalReason → Bool
  | unloadedToChunk => true
  | killed | discarded | changedWorld | storedWithPlayer => false

/-- Entity visibility of a chunk column. -/
inductive EntityVisibility where
  | hidden
  | tracked
  | ticking
  deriving DecidableEq

namespace EntityVisibility

def isAccessible : EntityVisibility → Bool
  | tracked | ticking => true
  | hidden => false

def isTicking : EntityVisibility → Bool
  | ticking => true
  | hidden | tracked => false

end EntityVisibility

inductive AddEntityError where
  | chunkNotLoaded (entityId : EntityId) (chunk : ChunkPos)
  | duplicateUuid (entityId : EntityId) (uuid : Uuid)
  | removedEntity (entityId : EntityId)
  deriving DecidableEq

inductive EntityMoveError where
  | notLive (entityId : EntityId)
  | inactive (entityId : EntityId)
  | unloadedDestination (entityId : EntityId) (chunk : ChunkPos)
  deriving DecidableEq

/-- The assertions of the manager. The last one stands for a recursion that is cut off. -/
inductive ManagerPanic where
  | sectionOrderExhausted
  | registeredId (id : EntityId)
  | registeredUuid (uuid : Uuid)
  | repeatedInTree (id : EntityId)
  | repeatedInCell (id : EntityId)
  | cyclicPassengerRelationship (id : EntityId)
  | duplicateSaveableUuid (uuid : Uuid)
  | endless
  deriving DecidableEq

structure EntityLifecycleChanges where
  trackingStarted : List SharedEntity
  trackingStopped : List SharedEntity
  tickingStarted : List SharedEntity
  tickingStopped : List SharedEntity
  deriving DecidableEq

namespace EntityLifecycleChanges

def none : EntityLifecycleChanges := ⟨[], [], [], []⟩

def extend (changes other : EntityLifecycleChanges) : EntityLifecycleChanges where
  trackingStarted := changes.trackingStarted ++ other.trackingStarted
  trackingStopped := changes.trackingStopped ++ other.trackingStopped
  tickingStarted := changes.tickingStarted ++ other.tickingStarted
  tickingStopped := changes.tickingStopped ++ other.tickingStopped

end EntityLifecycleChanges

/-- The update of section and chunk by a committed move. -/
structure EntityMoveUpdate where
  entityId : EntityId
  oldSection : SectionPos
  newSection : SectionPos
  oldChunk : ChunkPos
  newChunk : ChunkPos
  oldAccessible : Bool
  newAccessible : Bool
  oldTicking : Bool
  newTicking : Bool
  deriving DecidableEq

namespace EntityMoveUpdate

variable (update : EntityMoveUpdate)

def becameAccessible : Bool :=
  !update.oldAccessible && update.newAccessible

def becameInaccessible : Bool :=
  update.oldAccessible && !update.newAccessible

end EntityMoveUpdate

structure ChunkEntityLoadResult where
  restored : List SharedEntity
  trackingStarted : List SharedEntity
  tickingStarted : List SharedEntity
  needsSave : Bool
  deriving DecidableEq

structure ChunkEntityUnloadStart where
  retained : List SharedEntity
  trackingStopped : List SharedEntity
  tickingStopped : List SharedEntity
  deriving DecidableEq

/-- The order of a query: by the packed section, then by the order of insertion. -/
abbrev EntityQueryOrder := PackedSectionPos ×ₗ ℕ

structure EntityEntry (Box : Type) where
  entity : SharedEntity
  uuid : Uuid
  sectionPos : SectionPos
  chunk : ChunkPos
  boundingBox : Box
  spatialCells : List EntitySpatialCell
  sectionOrder : ℕ
  ownership : EntityOwnership

namespace EntityEntry

variable {Box : Type}

def new (fromAabb : Box → EntitySpatialCellBounds) (view : EntityView Box) (entity : SharedEntity)
    (ownership : EntityOwnership) : EntityEntry Box where
  entity := entity
  uuid := entity.uuid
  sectionPos := view.sectionPos entity.id
  chunk := (view.sectionPos entity.id).chunk
  boundingBox := view.boundingBox entity.id
  spatialCells := (fromAabb (view.boundingBox entity.id)).cells
  sectionOrder := 0
  ownership := ownership

def shouldSave (view : EntityView Box) (entry : EntityEntry Box) : Bool :=
  entry.ownership = .managerOwned &&
    (!view.isRemoved entry.entity.id ||
      (view.removalReason entry.entity.id).any RemovalReason.shouldSave) &&
    !view.isPassenger entry.entity.id &&
    !view.hasExactlyOnePlayerPassenger entry.entity.id &&
    entry.entity.canSerialize

def queryOrder (entry : EntityEntry Box) : EntityQueryOrder :=
  toLex (entry.sectionPos.pack, entry.sectionOrder)

end EntityEntry

abbrev OrderedEntityIds := List EntityId

def OrderedEntityIds.insert (ids : OrderedEntityIds) (id : EntityId) : OrderedEntityIds :=
  if id ∈ ids then ids else ids ++ [id]

open OrderedEntityIds (insert)

structure EntityTickList where
  active : EntityId → Option SharedEntity
  order : List EntityId

namespace EntityTickList

def add (ticks : EntityTickList) (entity : SharedEntity) : Bool × EntityTickList :=
  let active := update ticks.active entity.id (some entity)
  if (ticks.active entity.id).isSome then (false, { ticks with active := active })
  else (true, ⟨active, ticks.order ++ [entity.id]⟩)

def remove (ticks : EntityTickList) (id : EntityId) : Option SharedEntity × EntityTickList :=
  match ticks.active id with
  | none => (none, ticks)
  | some removed =>
    (some removed, ⟨update ticks.active id none, ticks.order.filter (· ≠ id)⟩)

end EntityTickList

/-- The set of ids of a chunk is a list like the other buckets; its order is never used. -/
structure ManagerState (Box : Type) where
  chunkVisibility : ChunkPos → Option EntityVisibility
  liveById : EntityId → Option (EntityEntry Box)
  liveByUuid : Uuid → Option EntityId
  accessibleOrder : OrderedEntityIds
  bySection : HashMap PackedSectionPos OrderedEntityIds
  bySpatialCell : EntitySpatialCell → Option OrderedEntityIds
  byChunk : ChunkPos → Option (List EntityId)
  unloadingByChunk : HashMap ChunkPos (List (EntityEntry Box))
  savePendingByChunk : HashMap ChunkPos (List (EntityEntry Box))
  tickList : EntityTickList
  nextSectionOrder : ℕ

namespace ManagerState

variable {Box : Type}

def new : ManagerState Box where
  chunkVisibility _ := none
  liveById _ := none
  liveByUuid _ := none
  accessibleOrder := []
  bySection := ∅
  bySpatialCell _ := none
  byChunk _ := none
  unloadingByChunk := ∅
  savePendingByChunk := ∅
  tickList := ⟨fun _ => none, []⟩
  nextSectionOrder := 0

variable (m : ManagerState Box)

/-- `chunk_visibility`, a chunk without an entry is hidden. -/
def visibilityOf (chunk : ChunkPos) : EntityVisibility :=
  (m.chunkVisibility chunk).getD .hidden

def effectiveVisibility (entry : EntityEntry Box) (chunkVisibility : EntityVisibility) :
    EntityVisibility :=
  if entry.entity.isAlwaysTicking then .ticking
  else if entry.ownership = .external then .tracked
  else chunkVisibility

def isAccessibleAt (ownership : EntityOwnership) (chunk : ChunkPos) : Bool :=
  ownership = .external || (m.visibilityOf chunk).isAccessible

def isAccessible (entry : EntityEntry Box) : Bool :=
  m.isAccessibleAt entry.ownership entry.chunk

/-- `next_section_order`. -/
def takeSectionOrder : Except ManagerPanic (ℕ × ManagerState Box) :=
  if m.nextSectionOrder < 2 ^ 64 - 1 then
    .ok (m.nextSectionOrder, { m with nextSectionOrder := m.nextSectionOrder + 1 })
  else .error .sectionOrderExhausted

def insertIntoSection (sectionPos : SectionPos) (id : EntityId) : ManagerState Box :=
  let ids := (m.bySection.lookup sectionPos.pack).getD []
  { m with bySection := m.bySection.insert sectionPos.pack (insert ids id) }

def insertIntoChunk (chunk : ChunkPos) (id : EntityId) : ManagerState Box :=
  let ids := (m.byChunk chunk).getD []
  { m with byChunk := update m.byChunk chunk (some (insert ids id)) }

/-- Behind the last one in the common case, else before the first one that comes later. -/
def insertionIndex (ids : OrderedEntityIds) (queryOrder : EntityQueryOrder) : ℕ :=
  let appendInOrder := ids.getLast?.all fun existing =>
    (m.liveById existing).all fun entry => entry.queryOrder ≤ queryOrder
  if appendInOrder then ids.length
  else
    (ids.findIdx? fun existing =>
      (m.liveById existing).any fun entry => queryOrder < entry.queryOrder).getD ids.length

def insertIntoSpatialCell (id : EntityId) (queryOrder : EntityQueryOrder) (m : ManagerState Box)
    (cell : EntitySpatialCell) : Except ManagerPanic (ManagerState Box) :=
  let ids := (m.bySpatialCell cell).getD []
  if id ∈ ids then .error (.repeatedInCell id)
  else
    .ok { m with
      bySpatialCell := update m.bySpatialCell cell
        (some (ids.insertIdx (m.insertionIndex ids queryOrder) id)) }

def insertIntoSpatialCells (cells : List EntitySpatialCell) (id : EntityId)
    (queryOrder : EntityQueryOrder) : Except ManagerPanic (ManagerState Box) :=
  cells.foldlM (insertIntoSpatialCell id queryOrder) m

def removeFromSpatialCells (cells : List EntitySpatialCell) (id : EntityId) : ManagerState Box :=
  { m with
    bySpatialCell :=
      cells.foldl (fun index cell => removeFromBucket index cell id) m.bySpatialCell }

def removeFromSection (sectionPos : SectionPos) (id : EntityId) : ManagerState Box :=
  match m.bySection.lookup sectionPos.pack with
  | none => m
  | some ids =>
    if (ids.erase id).isEmpty then { m with bySection := m.bySection.erase sectionPos.pack }
    else { m with bySection := m.bySection.insert sectionPos.pack (ids.erase id) }

def removeFromChunk (chunk : ChunkPos) (id : EntityId) : ManagerState Box :=
  { m with byChunk := removeFromBucket m.byChunk chunk id }

def entityIdsInChunkOrder (chunk : ChunkPos) : List EntityId :=
  let first := SectionPos.pack ⟨chunk.x, 0, chunk.z⟩
  let last := SectionPos.pack ⟨chunk.x, -1, chunk.z⟩
  let range := (m.bySection.keys.filter fun key => first ≤ key ∧ key ≤ last).insertionSort (· ≤ ·)
  range.flatMap fun key => (m.bySection.lookup key).getD []

variable (fromAabb : Box → EntitySpatialCellBounds) (view : EntityView Box)

def insertLiveEntry (entry : EntityEntry Box) (m : ManagerState Box) :
    Except ManagerPanic (ManagerState Box) := do
  let id := entry.entity.id
  let entry := { entry with
    boundingBox := view.boundingBox id
    spatialCells := (fromAabb (view.boundingBox id)).cells }
  if (m.liveById id).isSome then
    throw (.registeredId id)
  if (m.liveByUuid entry.uuid).isSome then
    throw (.registeredUuid entry.uuid)
  let (order, m) ← { m with
    liveByUuid := update m.liveByUuid entry.uuid (some id) }.takeSectionOrder
  let entry := { entry with sectionOrder := order }
  let m := m.insertIntoSection entry.sectionPos id
  let m ← m.insertIntoSpatialCells entry.spatialCells id entry.queryOrder
  let m := m.insertIntoChunk entry.chunk id
  let m := { m with liveById := update m.liveById id (some entry) }
  if m.isAccessible entry then
    return { m with accessibleOrder := insert m.accessibleOrder id }
  return m

def removeLiveEntry (id : EntityId) : Option (EntityEntry Box × ManagerState Box) :=
  match m.liveById id with
  | none => none
  | some entry =>
    let m := { m with
      liveById := update m.liveById id none
      tickList := (m.tickList.remove id).2
      liveByUuid := update m.liveByUuid entry.uuid none
      accessibleOrder := m.accessibleOrder.erase id }
    let m := m.removeFromSection entry.sectionPos id
    let m := m.removeFromSpatialCells entry.spatialCells id
    some (entry, m.removeFromChunk entry.chunk id)

def applyEntityLifecycleAfterInsert (id : EntityId) : EntityLifecycleChanges × ManagerState Box :=
  match m.liveById id with
  | none => (.none, m)
  | some entry =>
    let visibility := effectiveVisibility entry (m.visibilityOf entry.chunk)
    let started := if visibility.isAccessible then [entry.entity] else []
    if visibility.isTicking then
      let (added, ticks) := m.tickList.add entry.entity
      (⟨started, [], if added then [entry.entity] else [], []⟩, { m with tickList := ticks })
    else (⟨started, [], [], []⟩, m)

def changeVisibility (previous new : EntityVisibility)
    (state : EntityLifecycleChanges × ManagerState Box) (id : EntityId) :
    EntityLifecycleChanges × ManagerState Box :=
  let (changes, m) := state
  match m.liveById id with
  | none => (changes, m)
  | some entry =>
    let oldVisibility := effectiveVisibility entry previous
    let newVisibility := effectiveVisibility entry new
    if entry.ownership ≠ .managerOwned ∨ oldVisibility = newVisibility then (changes, m)
    else
      let entity := entry.entity
      let (changes, m) :=
        if oldVisibility.isTicking && !newVisibility.isTicking then
          let (removed, ticks) := m.tickList.remove id
          let stopped := if removed.isSome then [entity] else []
          ({ changes with tickingStopped := changes.tickingStopped ++ stopped },
            { m with tickList := ticks })
        else (changes, m)
      let (changes, m) :=
        if oldVisibility.isAccessible && !newVisibility.isAccessible then
          ({ changes with trackingStopped := changes.trackingStopped ++ [entity] },
            { m with accessibleOrder := m.accessibleOrder.erase id })
        else if !oldVisibility.isAccessible && newVisibility.isAccessible then
          ({ changes with trackingStarted := changes.trackingStarted ++ [entity] },
            { m with accessibleOrder := insert m.accessibleOrder id })
        else (changes, m)
      if !oldVisibility.isTicking && newVisibility.isTicking then
        let (added, ticks) := m.tickList.add entity
        let started := if added then [entity] else []
        ({ changes with tickingStarted := changes.tickingStarted ++ started },
          { m with tickList := ticks })
      else (changes, m)

def applyChunkVisibilityChange (chunk : ChunkPos)
    (previous new : EntityVisibility) : EntityLifecycleChanges × ManagerState Box :=
  (m.entityIdsInChunkOrder chunk).foldl (changeVisibility previous new) (.none, m)

def restoreEntry (pos : ChunkPos) (state : ChunkEntityLoadResult × ManagerState Box)
    (entry : EntityEntry Box) : Except ManagerPanic (ChunkEntityLoadResult × ManagerState Box) :=
  let (result, m) := state
  if view.isRemoved entry.entity.id then
    if entry.shouldSave view then
      let pending := (m.savePendingByChunk.lookup pos).getD []
      .ok ({ result with needsSave := true },
        { m with savePendingByChunk := m.savePendingByChunk.insert pos (pending ++ [entry]) })
    else .ok (result, m)
  else do
    let m ← m.insertLiveEntry fromAabb view entry
    let (lifecycle, m) := m.applyEntityLifecycleAfterInsert entry.entity.id
    return ({ result with
      trackingStarted := result.trackingStarted ++ lifecycle.trackingStarted
      tickingStarted := result.tickingStarted ++ lifecycle.tickingStarted
      restored := result.restored ++ [entry.entity] }, m)

def onChunkLoaded (pos : ChunkPos) (m : ManagerState Box) :
    Except ManagerPanic (ChunkEntityLoadResult × ManagerState Box) :=
  let m := { m with
    chunkVisibility := update m.chunkVisibility pos (some (m.visibilityOf pos)) }
  let result : ChunkEntityLoadResult := ⟨[], [], [], false⟩
  match m.unloadingByChunk.lookup pos with
  | none => .ok (result, m)
  | some entries =>
    let m := { m with unloadingByChunk := m.unloadingByChunk.erase pos }
    entries.foldlM (restoreEntry fromAabb view pos) (result, m)

def updateChunkVisibility (pos : ChunkPos) (visibility : EntityVisibility) (m : ManagerState Box) :
    EntityLifecycleChanges × ManagerState Box :=
  let previous := m.visibilityOf pos
  let m := { m with chunkVisibility := update m.chunkVisibility pos (some visibility) }
  if previous = visibility then (.none, m)
  else m.applyChunkVisibilityChange pos previous visibility

/-- What `begin_chunk_unload` collects. -/
structure Retention (Box : Type) where
  state : ManagerState Box
  visited : Finset EntityId
  retained : List (EntityEntry Box)
  retainedEntities : List SharedEntity
  trackingStoppedIds : Finset EntityId
  trackingStopped : List SharedEntity

def Retention.pushUniqueEntity (r : Retention Box) (entity : SharedEntity) : Retention Box :=
  if entity.id ∈ r.trackingStoppedIds then r
  else { r with
    trackingStoppedIds := insert entity.id r.trackingStoppedIds
    trackingStopped := r.trackingStopped ++ [entity] }

/-- Retains an entity and those that ride on it, with fuel for the depth. -/
def retainUnloadingEntityTree (fromAabb : Box → EntitySpatialCellBounds) (view : EntityView Box) :
    ℕ → Retention Box → EntityId → Except ManagerPanic (Retention Box)
  | 0, _, _ => .error .endless
  | fuel + 1, r, id =>
    if id ∈ r.visited then .ok r
    else
      let r := { r with visited := insert id r.visited }
      match r.state.removeLiveEntry id with
      | none => .ok r
      | some (entry, m) =>
        if entry.ownership ≠ .managerOwned then do
          let m ← m.insertLiveEntry fromAabb view entry
          let entityToTick := (m.liveById entry.entity.id).bind fun entry =>
            if (effectiveVisibility entry (m.visibilityOf entry.chunk)).isTicking then
              some entry.entity
            else none
          match entityToTick with
          | none => return { r with state := m }
          | some entity =>
            return { r with state := { m with tickList := (m.tickList.add entity).2 } }
        else
          let r := { r with state := m }.pushUniqueEntity entry.entity
          let r := { r with
            retainedEntities := r.retainedEntities ++ [entry.entity]
            retained := r.retained ++ [entry] }
          (view.passengers entry.entity.id).foldlM
            (retainUnloadingEntityTree fromAabb view fuel) r

/-- An entity of an unloading chunk stops being tracked, and is a root unless it rides. -/
def stopInChunk (state : Retention Box × List EntityId) (id : EntityId) :
    Retention Box × List EntityId :=
  let (r, rootIds) := state
  match r.state.liveById id with
  | none => (r, rootIds)
  | some entry =>
    if entry.ownership ≠ .managerOwned then (r, rootIds)
    else
      (r.pushUniqueEntity entry.entity,
        if view.isPassenger entry.entity.id then rootIds else rootIds ++ [id])

def beginChunkUnload (pos : ChunkPos) (m : ManagerState Box) :
    Except ManagerPanic (ChunkEntityUnloadStart × ManagerState Box) := do
  let previousVisibility := m.visibilityOf pos
  let m := { m with chunkVisibility := update m.chunkVisibility pos none }
  let ids := m.entityIdsInChunkOrder pos
  let (lifecycle, m) := m.applyChunkVisibilityChange pos previousVisibility .hidden
  let r : Retention Box :=
    { state := m
      visited := ∅
      retained := []
      retainedEntities := []
      trackingStoppedIds := (lifecycle.trackingStopped.map SharedEntity.id).toFinset
      trackingStopped := lifecycle.trackingStopped }
  let (r, rootIds) := ids.foldl (stopInChunk view) (r, [])
  let r ← rootIds.foldlM (retainUnloadingEntityTree fromAabb view EntityWorld.idFuel) r
  let m :=
    if r.retained.isEmpty then r.state
    else
      let unloading := (r.state.unloadingByChunk.lookup pos).getD []
      { r.state with
        unloadingByChunk := r.state.unloadingByChunk.insert pos (unloading ++ r.retained) }
  return (⟨r.retainedEntities, r.trackingStopped, lifecycle.tickingStopped⟩, m)

def finalizeChunkUnload (pos : ChunkPos) (m : ManagerState Box) :
    List (EntityEntry Box) × ManagerState Box :=
  ((m.unloadingByChunk.lookup pos).getD [],
    { m with unloadingByChunk := m.unloadingByChunk.erase pos })

def unloading : List (EntityEntry Box) := contents m.unloadingByChunk

/-- The entries that wait for the acknowledgement of a save. -/
def savePending : List (EntityEntry Box) := contents m.savePendingByChunk

def containsUuid (uuid : Uuid) : Bool :=
  (m.liveByUuid uuid).isSome || m.unloading.any (·.uuid = uuid) || m.savePending.any (·.uuid = uuid)

def containsId (id : EntityId) : Bool :=
  (m.liveById id).isSome || m.unloading.any (·.entity.id = id) ||
    m.savePending.any (·.entity.id = id)

def checkedLiveEntry (ownership : EntityOwnership) (entity : SharedEntity) :
    Except AddEntityError (EntityEntry Box) :=
  if view.isRemoved entity.id then .error (.removedEntity entity.id)
  else .ok (.new fromAabb view entity ownership)

def validateLiveEntries (m : ManagerState Box) (ownership : EntityOwnership)
    (requireLoadedChunks : Bool) :
    List (EntityEntry Box) → Except ManagerPanic (Except AddEntityError Unit)
  | [] => .ok (.ok ())
  | entry :: entries =>
    if m.containsId entry.entity.id then .error (.registeredId entry.entity.id)
    else if m.containsUuid entry.uuid then
      .ok (.error (.duplicateUuid entry.entity.id entry.uuid))
    else if requireLoadedChunks && ownership = .managerOwned &&
        (m.chunkVisibility entry.chunk).isNone then
      .ok (.error (.chunkNotLoaded entry.entity.id entry.chunk))
    else m.validateLiveEntries ownership requireLoadedChunks entries

def addLiveEntity (entity : SharedEntity) (ownership : EntityOwnership) (m : ManagerState Box) :
    Except ManagerPanic (Except AddEntityError EntityLifecycleChanges × ManagerState Box) := do
  match checkedLiveEntry fromAabb view ownership entity with
  | .error error => return (.error error, m)
  | .ok entry =>
    match ← m.validateLiveEntries ownership true [entry] with
    | .error error => return (.error error, m)
    | .ok () =>
      let m ← m.insertLiveEntry fromAabb view entry
      let (lifecycle, m) := m.applyEntityLifecycleAfterInsert entry.entity.id
      return (.ok lifecycle, m)

/-- No id and no uuid comes twice. An id that does is a panic. -/
def checkTree : List (EntityEntry Box) → List EntityId → List Uuid →
    Except ManagerPanic (Except AddEntityError Unit)
  | [], _, _ => .ok (.ok ())
  | entry :: entries, seenIds, seenUuids =>
    if entry.entity.id ∈ seenIds then .error (.repeatedInTree entry.entity.id)
    else if entry.uuid ∈ seenUuids then
      .ok (.error (.duplicateUuid entry.entity.id entry.uuid))
    else checkTree entries (entry.entity.id :: seenIds) (entry.uuid :: seenUuids)

def addLiveEntityTree (entities : List SharedEntity) (ownership : EntityOwnership)
    (m : ManagerState Box) :
    Except ManagerPanic (Except AddEntityError EntityLifecycleChanges × ManagerState Box) := do
  match entities.mapM (checkedLiveEntry fromAabb view ownership) with
  | .error error => return (.error error, m)
  | .ok entries =>
    match ← checkTree entries [] [] with
    | .error error => return (.error error, m)
    | .ok () =>
      match ← m.validateLiveEntries ownership false entries with
      | .error error => return (.error error, m)
      | .ok () =>
        let m ← entries.foldlM (fun m entry => m.insertLiveEntry fromAabb view entry) m
        let (lifecycle, m) := entries.foldl
          (fun (lifecycle, m) entry =>
            let (changes, m) := m.applyEntityLifecycleAfterInsert entry.entity.id
            (lifecycle.extend changes, m))
          (EntityLifecycleChanges.none, m)
        return (.ok lifecycle, m)

def removeLiveEntity (id : EntityId) (reason : RemovalReason) (m : ManagerState Box) :
    Option SharedEntity × ManagerState Box :=
  match m.removeLiveEntry id with
  | none => (none, m)
  | some (entry, m) =>
    if reason.shouldSave && entry.shouldSave view then
      let pending := (m.savePendingByChunk.lookup entry.chunk).getD []
      (some entry.entity,
        { m with
          savePendingByChunk := m.savePendingByChunk.insert entry.chunk (pending ++ [entry]) })
    else (some entry.entity, m)

def onChunkSaved (chunk : ChunkPos) (savedEntityIds : List EntityId) (m : ManagerState Box) :
    ManagerState Box :=
  if savedEntityIds.isEmpty then m
  else
    match m.savePendingByChunk.lookup chunk with
    | none => m
    | some entries =>
      let entries := entries.filter (·.entity.id ∉ savedEntityIds)
      if entries.isEmpty then { m with savePendingByChunk := m.savePendingByChunk.erase chunk }
      else { m with savePendingByChunk := m.savePendingByChunk.insert chunk entries }

/-- Walks up to the root vehicle. A vehicle that comes up again is a panic. -/
def walkToRootVehicle (view : EntityView Box) (m : ManagerState Box) (entity : EntityId) :
    ℕ → List EntityId → EntityId → EntityId → Except ManagerPanic Bool
  | 0, _, _, _ => .error .endless
  | fuel + 1, visited, passenger, vehicle =>
    if vehicle ∈ visited then .error (.cyclicPassengerRelationship entity)
    else if view.isRemoved vehicle || passenger ∉ view.passengers vehicle then .ok false
    else
      match m.liveById vehicle with
      | none => .ok false
      | some vehicleEntry =>
        match view.vehicle vehicle with
        | some nextVehicle =>
          walkToRootVehicle view m entity fuel (vehicle :: visited) vehicle nextVehicle
        | none =>
          match vehicleEntry.ownership with
          | .external => .ok true
          | .managerOwned => .ok (m.chunkVisibility vehicleEntry.chunk).isSome

def hasLiveLoadedRootVehicle (m : ManagerState Box) (entity : EntityId) :
    Except ManagerPanic Bool :=
  match view.vehicle entity with
  | none => .ok false
  | some vehicle => walkToRootVehicle view m entity EntityWorld.idFuel [entity] entity vehicle

def canMoveManagerOwnedToChunk (m : ManagerState Box) (entry : EntityEntry Box)
    (newChunk : ChunkPos) : Except ManagerPanic Bool :=
  if (m.chunkVisibility newChunk).isSome then .ok true
  else if view.isPassenger entry.entity.id then m.hasLiveLoadedRootVehicle view entry.entity.id
  else .ok false

/-- The part of `commit_move` that follows its checks. -/
def moveEntry (id : EntityId) (newSection : SectionPos) (current : EntityEntry Box)
    (m : ManagerState Box) : Except ManagerPanic (EntityMoveUpdate × ManagerState Box) :=
  let newChunk := newSection.chunk
  let oldAccessible := m.isAccessible current
  let newAccessible := m.isAccessibleAt current.ownership newChunk
  let oldTicking := (effectiveVisibility current (m.visibilityOf current.chunk)).isTicking
  let newTicking := (effectiveVisibility current (m.visibilityOf newChunk)).isTicking
  let newBoundingBox := view.boundingBox id
  let newSpatialCells := (fromAabb newBoundingBox).cells
  let update : EntityMoveUpdate :=
    { entityId := id
      oldSection := current.sectionPos
      newSection := newSection
      oldChunk := current.chunk
      newChunk := newChunk
      oldAccessible := oldAccessible
      newAccessible := newAccessible
      oldTicking := oldTicking
      newTicking := newTicking }
  if current.sectionPos = newSection ∧ current.spatialCells = newSpatialCells then
    let entry := { current with boundingBox := newBoundingBox }
    .ok (update, { m with liveById := Function.update m.liveById id (some entry) })
  else do
    let m :=
      if current.sectionPos ≠ newSection then
        (m.removeFromSection current.sectionPos id).removeFromChunk current.chunk id
      else m
    let (newSectionOrder, m) ←
      if current.sectionPos ≠ newSection then m.takeSectionOrder else .ok (current.sectionOrder, m)
    let entry := { current with
      sectionPos := newSection
      chunk := newChunk
      boundingBox := newBoundingBox
      spatialCells := newSpatialCells
      sectionOrder := newSectionOrder }
    let m := m.removeFromSpatialCells current.spatialCells id
    let m ← m.insertIntoSpatialCells newSpatialCells id entry.queryOrder
    let m := { m with liveById := Function.update m.liveById id (some entry) }
    let m :=
      if current.sectionPos ≠ newSection then
        (m.insertIntoSection newSection id).insertIntoChunk newChunk id
      else m
    let accessibleOrder :=
      if oldAccessible && !newAccessible then m.accessibleOrder.erase id
      else if !oldAccessible && newAccessible then insert m.accessibleOrder id
      else m.accessibleOrder
    let tickList :=
      if oldTicking && !newTicking then (m.tickList.remove id).2
      else if !oldTicking && newTicking then (m.tickList.add current.entity).2
      else m.tickList
    return (update, { m with accessibleOrder := accessibleOrder, tickList := tickList })

def commitMove (id : EntityId) (newSection : SectionPos) (m : ManagerState Box) :
    Except ManagerPanic (Except EntityMoveError EntityMoveUpdate × ManagerState Box) :=
  match m.liveById id with
  | none => .ok (.error (.notLive id), m)
  | some current => do
    let allowed ←
      if current.ownership = .managerOwned then
        m.canMoveManagerOwnedToChunk view current newSection.chunk
      else .ok true
    if allowed then
      let (update, m) ← m.moveEntry fromAabb view id newSection current
      return (.ok update, m)
    else return (.error (.unloadedDestination id newSection.chunk), m)

def commitBoundingBoxChange (id : EntityId) (m : ManagerState Box) :
    Except ManagerPanic (ManagerState Box) :=
  match m.liveById id with
  | none => .ok m
  | some current =>
    let boundingBox := view.boundingBox id
    let newSpatialCells := (fromAabb boundingBox).cells
    if current.spatialCells = newSpatialCells then
      let entry := { current with boundingBox := boundingBox }
      .ok { m with liveById := update m.liveById id (some entry) }
    else do
      let m := m.removeFromSpatialCells current.spatialCells id
      let m ← m.insertIntoSpatialCells newSpatialCells id current.queryOrder
      let entry := { current with boundingBox := boundingBox, spatialCells := newSpatialCells }
      return { m with liveById := update m.liveById id (some entry) }

/-- Entries that are not to be saved and repeated ids are passed over. A repeated uuid panics. -/
def pushSaveableEntities (view : EntityView Box) :
    List (EntityEntry Box) → List EntityId → List Uuid → Except ManagerPanic (List SharedEntity)
  | [], _, _ => .ok []
  | entry :: entries, seenIds, seenUuids =>
    if !entry.shouldSave view || entry.entity.id ∈ seenIds then
      pushSaveableEntities view entries seenIds seenUuids
    else if entry.uuid ∈ seenUuids then .error (.duplicateSaveableUuid entry.uuid)
    else do
      let rest ← pushSaveableEntities view entries (entry.entity.id :: seenIds)
        (entry.uuid :: seenUuids)
      return entry.entity :: rest

def getSaveableEntitiesForChunk (m : ManagerState Box) (chunk : ChunkPos) :
    Except ManagerPanic (List SharedEntity) :=
  pushSaveableEntities view
    ((m.entityIdsInChunkOrder chunk).filterMap m.liveById ++
      (m.unloadingByChunk.lookup chunk).getD [] ++ (m.savePendingByChunk.lookup chunk).getD [])
    [] []

end ManagerState

end Steel
