import Steel.Light.SkySections

/-! # Sky light

Sky light comes down open columns at full level and spreads from there.
-/

namespace Steel.SkyLightEngine

variable {S : Type*} (sky : SkyLightEngine S)

def lowestY : ℤ := sky.layout.range.minSectionY * 16

/-- The level at a block, or at the first section above that has data. -/
def getLightLevelExtruded (light : LightLayerEdit) (pos : BlockCoords) : ℕ :=
  let sectionX := blockToSectionCoord pos.x
  let sectionY := blockToSectionCoord pos.y
  let sectionZ := blockToSectionCoord pos.z
  let above :=
    ((List.range (sky.layout.range.maxSectionYExclusive - (sectionY + 1)).toNat).findSome?
    fun i =>
      if !light.hasNonMissingSection sky.layout ⟨sectionX, sectionY + 1 + i, sectionZ⟩ then none
      else (sky.layout.cachedBlock ⟨pos.x, (sectionY + 1 + i) * 16, pos.z⟩).map light.get).getD
    maxLightLevel
  match sky.layout.cachedBlock pos with
  | none => above
  | some block =>
    if light.hasNonMissingSection sky.layout ⟨sectionX, sectionY, sectionZ⟩ then light.get block
    else above

def queueEntry (pos : BlockCoords) (level : ℕ) (directions : LightDirectionSet)
    (flags : LightQueueFlags) : Option PackedLightQueueEntry :=
  (sky.layout.encodeBlockPos pos).map fun packed =>
    PackedLightQueueEntry.fromParts packed level directions flags

def enqueueIncrease (pos : BlockCoords) (level : ℕ) (directions : LightDirectionSet)
    (flags : LightQueueFlags) (context : SkyLightContext) : SkyLightContext :=
  { context with
    toLightContext := sky.engine.enqueueIncrease pos level directions flags context.toLightContext }

def enqueueDecrease (pos : BlockCoords) (level : ℕ) (directions : LightDirectionSet)
    (flags : LightQueueFlags) (context : SkyLightContext) : SkyLightContext :=
  { context with
    toLightContext := sky.engine.enqueueDecrease pos level directions flags context.toLightContext }

def checkMissingSectionAt (x y z : ℤ) (context : SkyLightContext) : SkyLightContext :=
  sky.checkMissingSection (blockToSectionCoord x) (blockToSectionCoord z) (blockToSectionCoord y)
    true context

def opensDown (aboveState currentState : S) : Bool :=
  !(sky.blocks.getLightBlockInto aboveState currentState .down
      (sky.blocks.lightDampening currentState) == lightBlocked ||
    0 < sky.blocks.lightDampening currentState)

/-- The loop of `try_propagate_skylight_inner` with delayed levels. The fuel counts the blocks down
to the lowest one. -/
def propagateDown (x z : ℤ) : ℕ → ℤ → S → SkyLightContext → List PackedLightQueueEntry →
    SkyLightContext × List PackedLightQueueEntry × ℤ
  | 0, y, _, context, delayed => (context, delayed, y)
  | fuel + 1, y, aboveState, context, delayed =>
    if y < sky.lowestY then (context, delayed, y)
    else
      let context := if y % 16 = 15 then sky.checkMissingSectionAt x y z context else context
      let currentState := sky.engine.blockState ⟨x, y, z⟩
      if !sky.opensDown aboveState currentState then (context, delayed, y)
      else if context.light.hasNonMissingSection sky.layout
          ⟨blockToSectionCoord x, blockToSectionCoord y, blockToSectionCoord z⟩ then
        match sky.layout.cachedBlock ⟨x, y, z⟩ with
        | none => (context, delayed, y)
        | some _ =>
          propagateDown x z fuel (y - 1) currentState
            (sky.enqueueIncrease ⟨x, y, z⟩ maxLightLevel (.allExcept .positiveY)
              (sky.engine.shapeFlags currentState) context)
            (delayed ++ (sky.queueEntry ⟨x, y, z⟩ maxLightLevel (.allExcept .positiveY)
              (sky.engine.shapeFlags currentState)).toList)
      else propagateDown x z fuel (y / 16 * 16 - 1) sky.blocks.air context delayed

def tryPropagateSkylightDelayed (x y z : ℤ) (context : SkyLightContext)
    (delayed : List PackedLightQueueEntry) : SkyLightContext × List PackedLightQueueEntry × ℤ :=
  if sky.getLightLevelExtruded context.light ⟨x, y + 1, z⟩ ≠ maxLightLevel then
    (context, delayed, y)
  else sky.propagateDown x z (y + 1 - sky.lowestY).toNat y (sky.engine.blockState ⟨x, y + 1, z⟩)
    (sky.checkMissingSectionAt x y z context) delayed

/-- The loop of `remove_sky_sources_below`. -/
def removeDown (x z : ℤ) : ℕ → ℤ → SkyLightContext → List PackedLightQueueEntry →
    SkyLightContext × List PackedLightQueueEntry
  | 0, _, context, delayed => (context, delayed)
  | fuel + 1, y, context, delayed =>
    if y < sky.lowestY then (context, delayed)
    else
      let context := if y % 16 = 15 then sky.checkMissingSectionAt x y z context else context
      if !context.light.hasNonMissingSection sky.layout
          ⟨blockToSectionCoord x, blockToSectionCoord y, blockToSectionCoord z⟩ then
        removeDown x z fuel (y / 16 * 16 - 1) context delayed
      else
        match sky.layout.cachedBlock ⟨x, y, z⟩ with
        | none => (context, delayed)
        | some block =>
          if context.light.get block ≠ maxLightLevel then (context, delayed)
          else
            removeDown x z fuel (y - 1)
              (sky.enqueueDecrease ⟨x, y, z⟩ maxLightLevel (.allExcept .positiveY) .empty context)
              (delayed ++ (sky.queueEntry ⟨x, y, z⟩ maxLightLevel (.allExcept .positiveY)
                .empty).toList)

def removeSkySourcesBelow (x y z : ℤ) (context : SkyLightContext)
    (delayed : List PackedLightQueueEntry) : SkyLightContext × List PackedLightQueueEntry :=
  if sky.getLightLevelExtruded context.light ⟨x, y, z⟩ ≠ maxLightLevel then (context, delayed)
  else sky.removeDown x z (y + 1 - sky.lowestY).toNat y context delayed

/-- The columns of a chunk are counted by their two local coordinates. -/
def columnIndex (pos : BlockCoords) : ℕ := (pos.x % 16).toNat ||| (pos.z % 16).toNat <<< 4

def changedColumnMaxY (positions : List BlockCoords) (index : ℕ) : Option ℤ :=
  (((sky.centerPositions positions).filter fun pos => columnIndex pos = index).map (·.y)).max?

/-- What is put off until all columns have been walked. -/
structure DelayedEntries where
  increases : List PackedLightQueueEntry
  decreases : List PackedLightQueueEntry

def propagateColumn (positions : List BlockCoords) (state : SkyLightContext × DelayedEntries)
    (index : ℕ) : SkyLightContext × DelayedEntries :=
  match sky.changedColumnMaxY positions index with
  | none => state
  | some maxY =>
    let x := sky.layout.centerChunk.1 * 16 + (index % 16 : ℕ)
    let z := sky.layout.centerChunk.2 * 16 + (index / 16 % 16 : ℕ)
    let propagated := sky.tryPropagateSkylightDelayed x maxY z state.1 state.2.increases
    let removed := sky.removeSkySourcesBelow x propagated.2.2 z propagated.1 state.2.decreases
    (removed.1, ⟨propagated.2.1, removed.2⟩)

def propagateColumns (positions : List BlockCoords) (context : SkyLightContext) :
    SkyLightContext × DelayedEntries :=
  (List.range (16 * 16)).foldl (sky.propagateColumn positions) (context, ⟨[], []⟩)

def processDelayed (level : PackedLightQueueEntry → ℕ) (entries : List PackedLightQueueEntry)
    (context : SkyLightContext) : SkyLightContext :=
  entries.foldl (fun context entry =>
    match sky.layout.cachedBlockFromPacked entry.blockPos with
    | none => context
    | some block =>
      { context with toLightContext := context.toLightContext.setLevel block (level entry) })
      context

def processDelayedIncreases (entries : List PackedLightQueueEntry) (context : SkyLightContext) :
    SkyLightContext :=
  sky.processDelayed PackedLightQueueEntry.level entries context

def processDelayedDecreases (entries : List PackedLightQueueEntry) (context : SkyLightContext) :
    SkyLightContext :=
  sky.processDelayed (fun _ => 0) entries context

/-- `SkyLightPropagationContext::check_block` -/
def checkBlock (pos : BlockCoords) (context : SkyLightContext) : SkyLightContext :=
  match sky.layout.cachedBlock pos with
  | none => context
  | some block =>
    let currentLevel := context.light.get block
    sky.enqueueDecrease pos currentLevel .all .empty
      (if currentLevel = maxLightLevel then
        sky.enqueueIncrease pos currentLevel .all
          (LightQueueFlags.empty ||| .hasSidedTransparentBlocks) context
      else { context with toLightContext := context.toLightContext.setLevel block 0 })

/-- All that `propagate_block_changes` does before the queues are worked off. -/
def startBlockChanges (positions : List BlockCoords)
    (context : SkyLightContext) : SkyLightContext :=
  let context := { context with
    light := context.light.rewriteMissingSectionsForSkylight
    missingSectionChecked := fun _ => false }
  let context := sky.initializeChangedSections positions context
  let (context, delayed) := sky.propagateColumns positions context
  let context := sky.processDelayedIncreases delayed.increases context
  let context := sky.processDelayedDecreases delayed.decreases context
  positions.foldl (fun context pos => sky.checkBlock pos context) context

def propagateBlockChanges (fuel : ℕ) (positions : List BlockCoords) (context : SkyLightContext) :
    Option LightContext :=
  sky.engine.performLightDecrease fuel (sky.startBlockChanges positions context).toLightContext

end Steel.SkyLightEngine
